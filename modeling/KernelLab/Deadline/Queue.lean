/-
# `KernelLab.Deadline.Queue` — the two trees, their counts, and the earliest deadlines

What a runqueue keeps beside the trees is a function of them, and of the deadlines and
affinities of the tasks in them:

    Counts    the trees are trees of different tasks, the second within the first;
              dl_nr_running, dl_nr_total, dl_nr_migratory and overloaded count them
    Order     they are in the order of the deadlines; earliest_dl.curr is the first
              deadline and earliest_dl.next one behind it, or 0; and this CPU's entry
              in the heap of all CPUs is the first deadline

The first holds whatever the deadlines are, the second while they can be ordered.  Shown
here is that putting a task in and taking one out keep both.
-/
import KernelLab.Deadline.Runqueue

namespace KernelLab.Deadline

open KernelLab.Serial KernelLab.RbTree

namespace Rq

set_option linter.style.nameCheck false

structure Counts (rq : Rq) : Prop where
  shape : rq.rb.Shape
  pshape : rq.pushable.Shape
  running : rq.dl_nr_running = rq.queue.length
  total : rq.dl_nr_total = rq.queue.length
  migratory : rq.dl_nr_migratory = rq.queue.countP rq.migratable
  overloaded : rq.overloaded = decide (0 < rq.dl_nr_migratory ∧ 1 < rq.dl_nr_total)
  push : ∀ p ∈ rq.pushq, p ∈ rq.queue ∧ rq.migratable p = true

/-- The earliest deadlines are those of the tasks in `queue`; `m` is what the other CPUs have
in the heap. -/
structure Earliest (NR_CPUS : Nat) (m : Nat → Option Nat) (rq : Rq) (queue : List Nat) :
    Prop where
  curr : rq.earliest_curr = (queue.head?.map rq.deadline).getD 0
  next : rq.earliest_next = 0 ∨ ∃ p ∈ queue.tail, rq.deadline p = rq.earliest_next
  cpudl : Represents NR_CPUS rq.cpudl
    (Function.update m rq.cpu (queue.head?.map rq.deadline))

structure Order (NR_CPUS : Nat) (m : Nat → Option Nat) (rq : Rq) : Prop extends
    Earliest NR_CPUS m rq rq.queue where
  cpu_lt : rq.cpu < NR_CPUS
  range : ∀ p ∈ rq.queue, InRange (rq.deadline p)
  sorted : SortedBy rq.deadline rq.queue
  psorted : SortedBy rq.deadline rq.pushq

variable {NR_CPUS : Nat} {m : Nat → Option Nat} {rq : Rq} {p : Nat}

/-- Another deadline in the heap for this CPU. -/
theorem Earliest.set {queue : List Nat} (h : Earliest NR_CPUS m rq queue) {d : Nat}
    (hd : d < 2 ^ 63) :
    Represents NR_CPUS (cpudl_set rq.cpudl rq.cpu d true) (Function.update m rq.cpu (some d)) := by
  have hset := set_valid rq.cpu h.cpudl hd
  rwa [Function.update_idem] at hset

/-- None. -/
theorem Earliest.unset {queue : List Nat} (h : Earliest NR_CPUS m rq queue)
    (hcpu : rq.cpu < NR_CPUS) :
    Represents NR_CPUS (cpudl_set rq.cpudl rq.cpu 0 false) (Function.update m rq.cpu none) := by
  have hset := set_invalid 0 h.cpudl hcpu
  rwa [Function.update_idem] at hset

/-! ## The task after the first -/

theorem nextEarliest_mem (hshape : rq.rb.Shape) (cpu : Nat) {fuel x y : Nat} {pre post : List Nat}
    (hsplit : rq.queue = pre ++ x :: post) (h : rq.nextEarliest cpu fuel (some x) = some y) :
    y ∈ post := by
  induction fuel generalizing x pre post with
  | zero => cases h
  | succ fuel ih =>
      have hnext : rq.rb.next x = post.head? := hshape.next_eq hsplit
      simp only [nextEarliest, Option.bind_some, hnext] at h
      cases post with
      | nil => cases h
      | cons z post =>
          simp only [List.head?_cons] at h
          split at h
          · obtain rfl := Option.some.inj h
            exact List.mem_cons_self
          · have hsplit' : rq.queue = (pre ++ [x]) ++ z :: post := by
              rw [hsplit]
              simp
            exact List.mem_cons_of_mem _ (ih hsplit' h)

theorem next_deadline_spec (hshape : rq.rb.Shape) :
    rq.next_deadline = 0 ∨ ∃ p ∈ rq.queue.tail, rq.deadline p = rq.next_deadline := by
  unfold next_deadline
  split
  · rename_i p hpick
    split
    · refine .inr ⟨p, ?_, rfl⟩
      cases hq : rq.queue with
      | nil =>
          have hfirst : rq.rb.leftmost = none := by
            rw [hshape.first, show rq.rb.root.inorder = [] from hq]
            rfl
          unfold pick_next_earliest_dl_task at hpick
          rw [hfirst] at hpick
          cases hsize : rq.rb.root.size with
          | zero =>
              rw [hsize] at hpick
              cases hpick
          | succ n =>
              rw [hsize] at hpick
              cases hpick
      | cons x post =>
          have hfirst : rq.rb.leftmost = some x := by
            rw [hshape.first, show rq.rb.root.inorder = x :: post from hq]
            rfl
          unfold pick_next_earliest_dl_task at hpick
          rw [hfirst] at hpick
          exact nextEarliest_mem hshape rq.cpu (show rq.queue = [] ++ x :: post from hq) hpick
    · exact .inl rfl
  · exact .inl rfl

/-! ## In -/

theorem inc_dl_deadline_cases (rq : Rq) (d : Nat) :
    ((rq.earliest_curr = 0 ∨ before d rq.earliest_curr) ∧
      rq.inc_dl_deadline d =
        { rq with
          earliest_next := rq.earliest_curr
          earliest_curr := d
          cpudl := cpudl_set rq.cpudl rq.cpu d true }) ∨
    ¬ (rq.earliest_curr = 0 ∨ before d rq.earliest_curr) ∧
      (rq.inc_dl_deadline d = { rq with earliest_next := rq.next_deadline } ∨
        rq.inc_dl_deadline d = rq) := by
  unfold inc_dl_deadline
  by_cases hfirst : rq.earliest_curr = 0 ∨ before d rq.earliest_curr
  · rw [if_pos hfirst]
    exact .inl ⟨hfirst, rfl⟩
  · rw [if_neg hfirst]
    refine .inr ⟨hfirst, ?_⟩
    split
    · exact .inl rfl
    · exact .inr rfl

theorem inc_dl_deadline_eq (rq : Rq) (d : Nat) :
    ∃ ec en cd, rq.inc_dl_deadline d =
      { rq with earliest_curr := ec, earliest_next := en, cpudl := cd } := by
  rcases inc_dl_deadline_cases rq d with ⟨-, h⟩ | ⟨-, h | h⟩
  · exact ⟨_, _, _, h⟩
  · exact ⟨_, _, _, h⟩
  · exact ⟨_, _, _, h⟩

/-- The task is linked in and counted; the earliest deadlines are as before. -/
def linked (rq : Rq) (p : Nat) : Rq :=
  { rq with
    bug := rq.bug || decide (rq.on_dl_rq p)
    wrapped := rq.wrapped || decide (¬ InRange (rq.deadline p))
    rb := rq.rb.insert rq.Earlier p
    dl_nr_running := rq.dl_nr_running + 1 }

theorem enqueue_entity_linked (rq : Rq) (p : Nat) :
    rq.__enqueue_dl_entity p =
      ((rq.linked p).inc_dl_deadline (rq.deadline p)).inc_dl_migration p := rfl

/-- All that `__enqueue_dl_entity` changes. -/
theorem enqueue_entity_eq (rq : Rq) (p : Nat) :
    ∃ ec en cd, rq.__enqueue_dl_entity p =
      { rq with
        rb := rq.rb.insert rq.Earlier p
        dl_nr_running := rq.dl_nr_running + 1
        dl_nr_total := rq.dl_nr_total + 1
        dl_nr_migratory :=
          if rq.migratable p then rq.dl_nr_migratory + 1 else rq.dl_nr_migratory
        overloaded :=
          decide (0 < (if rq.migratable p then rq.dl_nr_migratory + 1 else rq.dl_nr_migratory) ∧
            1 < rq.dl_nr_total + 1)
        earliest_curr := ec
        earliest_next := en
        cpudl := cd
        bug := rq.bug || decide (rq.on_dl_rq p)
        wrapped := rq.wrapped || decide (¬ InRange (rq.deadline p)) } := by
  obtain ⟨ec, en, cd, h⟩ := inc_dl_deadline_eq (rq.linked p) (rq.deadline p)
  refine ⟨ec, en, cd, ?_⟩
  rw [enqueue_entity_linked, h]
  rfl

theorem Counts.enqueue_entity (h : Counts rq) (hp : p ∉ rq.queue) :
    Counts (rq.__enqueue_dl_entity p) := by
  obtain ⟨ec, en, cd, heq⟩ := enqueue_entity_eq rq p
  have hperm : (rq.__enqueue_dl_entity p).queue.Perm (p :: rq.queue) := by
    rw [heq]
    exact rq.rb.perm_insert rq.Earlier p
  have hmig : (rq.__enqueue_dl_entity p).migratable = rq.migratable := by
    rw [heq]
    rfl
  refine ⟨?_, ?_, ?_, ?_, ?_, ?_, ?_⟩
  · rw [heq]
    exact h.shape.insert rq.Earlier hp
  · rw [heq]
    exact h.pshape
  · rw [hperm.length_eq, heq, List.length_cons, ← h.running]
  · rw [hperm.length_eq, heq, List.length_cons, ← h.total]
  · rw [hperm.countP_eq, hmig, List.countP_cons, ← h.migratory, heq]
    show (if rq.migratable p then rq.dl_nr_migratory + 1 else rq.dl_nr_migratory) = _
    split <;> rfl
  · rw [heq]
  · intro q hq
    rw [heq] at hq
    obtain ⟨hmem, hq⟩ := h.push q hq
    rw [hmig, hperm.mem_iff]
    exact ⟨List.mem_cons_of_mem _ hmem, hq⟩

/-- Deadlines in range are ordered by `Earlier`. -/
theorem earlier_iff {a b : Nat} (ha : InRange (rq.deadline a)) (hb : InRange (rq.deadline b)) :
    rq.Earlier a b ↔ rq.deadline a < rq.deadline b :=
  before_iff_lt ha.2 hb.2

theorem Order.queue_linked (h : Order NR_CPUS m rq) (hrange : InRange (rq.deadline p)) :
    (rq.linked p).queue =
      rq.queue.orderedInsert (fun a b => rq.deadline a < rq.deadline b) p :=
  rq.rb.inorder_insert (fun a ha => earlier_iff hrange (h.range a ha)) h.sorted

theorem Order.earliest_inc (h : Order NR_CPUS m rq) (hshape : (rq.linked p).rb.Shape)
    (hrange : InRange (rq.deadline p)) :
    Earliest NR_CPUS m ((rq.linked p).inc_dl_deadline (rq.deadline p)) (rq.linked p).queue := by
  have hq := h.queue_linked hrange
  have hset := h.toEarliest.set hrange.2
  cases hold : rq.queue with
  | nil =>
      have hzero : (rq.linked p).earliest_curr = 0 := by
        show rq.earliest_curr = 0
        rw [h.curr, hold]
        rfl
      rw [hold, List.orderedInsert_nil] at hq
      rw [hq]
      rcases inc_dl_deadline_cases (rq.linked p) (rq.deadline p) with ⟨-, heq⟩ | ⟨hn, -⟩
      · rw [heq]
        exact ⟨rfl, .inl hzero, hset⟩
      · exact absurd (Or.inl hzero) hn
  | cons first rest =>
      have hfirst : InRange (rq.deadline first) := h.range first (by simp [hold])
      have hcurr : (rq.linked p).earliest_curr = rq.deadline first := by
        show rq.earliest_curr = _
        rw [h.curr, hold]
        rfl
      have hbefore : ((rq.linked p).earliest_curr = 0 ∨
          before (rq.deadline p) (rq.linked p).earliest_curr) ↔
            rq.deadline p < rq.deadline first := by
        rw [hcurr, before_iff_lt hrange.2 hfirst.2, or_iff_right hfirst.1.ne']
      have hcpudl := h.cpudl
      rw [hold, List.orderedInsert_cons] at hq
      rw [hold] at hcpudl
      rcases inc_dl_deadline_cases (rq.linked p) (rq.deadline p) with ⟨hlt, heq⟩ | ⟨hge, heq⟩
      · -- the new one is the first, and the old first the next
        rw [if_pos (hbefore.mp hlt)] at hq
        rw [hq, heq]
        exact ⟨rfl, .inr ⟨first, List.mem_cons_self, hcurr.symm⟩, hset⟩
      · rw [if_neg fun hlt => hge (hbefore.mpr hlt)] at hq
        rcases heq with heq | heq
        · have hnext := next_deadline_spec hshape
          rw [hq] at hnext ⊢
          rw [heq]
          exact ⟨hcurr, hnext, hcpudl⟩
        · rw [hq, heq]
          refine ⟨hcurr, ?_, hcpudl⟩
          rcases h.next with hzero | ⟨q, hmem, hqd⟩
          · exact .inl hzero
          · rw [hold] at hmem
            exact .inr ⟨q, (List.mem_orderedInsert _).mpr (.inr hmem), hqd⟩

theorem Order.enqueue_entity (h : Order NR_CPUS m rq) (hc : Counts rq) (hp : p ∉ rq.queue)
    (hrange : InRange (rq.deadline p)) : Order NR_CPUS m (rq.__enqueue_dl_entity p) := by
  have hq := h.queue_linked hrange
  have hearliest := h.earliest_inc (hc.shape.insert rq.Earlier hp) hrange
  obtain ⟨ec, en, cd, heq⟩ := inc_dl_deadline_eq (rq.linked p) (rq.deadline p)
  rw [enqueue_entity_linked]
  rw [heq] at hearliest ⊢
  refine ⟨⟨hearliest.curr, hearliest.next, hearliest.cpudl⟩, h.cpu_lt, ?_, ?_, h.psorted⟩
  · intro q hmem
    have hmem : q ∈ (rq.linked p).queue := hmem
    rw [hq, List.mem_orderedInsert] at hmem
    rcases hmem with rfl | hmem
    · exact hrange
    · exact h.range q hmem
  · show SortedBy rq.deadline (rq.linked p).queue
    rw [hq]
    exact sorted_orderedInsert p h.sorted

/-! ## Out -/

/-- The task is out of the first tree and no longer counted; the earliest deadlines are as
before. -/
def unlinked (rq : Rq) (p : Nat) : Rq :=
  { rq with
    rb := rq.rb.erase p
    dl_nr_running := rq.dl_nr_running - 1 }

theorem dequeue_entity_unlinked (hp : p ∈ rq.queue) :
    rq.__dequeue_dl_entity p = (rq.unlinked p).dec_dl_deadline.dec_dl_migration p :=
  if_pos hp

theorem Counts.queue_unlinked (h : Counts rq) (hp : p ∈ rq.queue) :
    (rq.unlinked p).queue = rq.queue.erase p :=
  h.shape.inorder_erase hp

theorem Counts.length_unlinked (h : Counts rq) (hp : p ∈ rq.queue) :
    (rq.unlinked p).dl_nr_running = (rq.unlinked p).queue.length := by
  rw [h.queue_unlinked hp, List.length_erase_of_mem hp, ← h.running]
  rfl

/-- The first of those that are left, if any, gives the earliest deadline. -/
theorem Counts.dec_dl_deadline_cases (h : Counts rq) (hp : p ∈ rq.queue) :
    ((rq.unlinked p).queue = [] ∧
      (rq.unlinked p).dec_dl_deadline =
        { rq.unlinked p with
          earliest_curr := 0
          earliest_next := 0
          cpudl := cpudl_set rq.cpudl rq.cpu 0 false }) ∨
    ∃ entry rest, (rq.unlinked p).queue = entry :: rest ∧
      (rq.unlinked p).dec_dl_deadline =
        { rq.unlinked p with
          earliest_curr := rq.deadline entry
          earliest_next := (rq.unlinked p).next_deadline
          cpudl := cpudl_set rq.cpudl rq.cpu (rq.deadline entry) true } := by
  have hlen := h.length_unlinked hp
  have hfirst : (rq.unlinked p).rb.leftmost = (rq.unlinked p).queue.head? :=
    (h.shape.erase hp).first
  unfold dec_dl_deadline
  cases hq : (rq.unlinked p).queue with
  | nil =>
      rw [hq, List.length_nil] at hlen
      rw [if_pos hlen]
      exact .inl ⟨rfl, rfl⟩
  | cons entry rest =>
      rw [hq, List.length_cons] at hlen
      rw [hq, List.head?_cons] at hfirst
      rw [if_neg (by omega), hfirst]
      exact .inr ⟨entry, rest, rfl, rfl⟩

theorem Counts.dec_dl_deadline_eq (h : Counts rq) (hp : p ∈ rq.queue) :
    ∃ ec en cd, (rq.unlinked p).dec_dl_deadline =
      { rq.unlinked p with earliest_curr := ec, earliest_next := en, cpudl := cd } := by
  rcases h.dec_dl_deadline_cases hp with ⟨-, heq⟩ | ⟨entry, rest, -, heq⟩
  · exact ⟨_, _, _, heq⟩
  · exact ⟨_, _, _, heq⟩

/-- All that `__dequeue_dl_entity` changes, for a task that is queued. -/
theorem Counts.dequeue_entity_eq (h : Counts rq) (hp : p ∈ rq.queue) :
    ∃ ec en cd, rq.__dequeue_dl_entity p =
      { rq with
        rb := rq.rb.erase p
        dl_nr_running := rq.dl_nr_running - 1
        dl_nr_total := rq.dl_nr_total - 1
        dl_nr_migratory :=
          if rq.migratable p then rq.dl_nr_migratory - 1 else rq.dl_nr_migratory
        overloaded :=
          decide (0 < (if rq.migratable p then rq.dl_nr_migratory - 1 else rq.dl_nr_migratory) ∧
            1 < rq.dl_nr_total - 1)
        earliest_curr := ec
        earliest_next := en
        cpudl := cd } := by
  obtain ⟨ec, en, cd, heq⟩ := h.dec_dl_deadline_eq hp
  refine ⟨ec, en, cd, ?_⟩
  rw [dequeue_entity_unlinked hp, heq]
  rfl

/-- All that `dequeue_pushable_dl_task` changes. -/
theorem dequeue_pushable_eq (rq : Rq) (hshape : rq.pushable.Shape) (p : Nat) :
    ∃ t : Cached Nat, t.Shape ∧ t.root.inorder = rq.pushq.erase p ∧
      rq.dequeue_pushable_dl_task p = { rq with pushable := t } := by
  unfold dequeue_pushable_dl_task
  split
  · rename_i hp
    exact ⟨_, hshape.erase hp, hshape.inorder_erase hp, rfl⟩
  · rename_i hp
    exact ⟨rq.pushable, hshape, (List.erase_of_not_mem hp).symm, rfl⟩

/-- Both trees are without the task. -/
theorem Counts.dequeue_task_eq (h : Counts rq) (hp : p ∈ rq.queue) :
    ∃ ec en cd t, t.Shape ∧ t.root.inorder = rq.pushq.erase p ∧
      rq.__dequeue_task_dl p =
        { rq with
          rb := rq.rb.erase p
          pushable := t
          dl_nr_running := rq.dl_nr_running - 1
          dl_nr_total := rq.dl_nr_total - 1
          dl_nr_migratory :=
            if rq.migratable p then rq.dl_nr_migratory - 1 else rq.dl_nr_migratory
          overloaded :=
            decide (0 < (if rq.migratable p then rq.dl_nr_migratory - 1 else rq.dl_nr_migratory) ∧
              1 < rq.dl_nr_total - 1)
          earliest_curr := ec
          earliest_next := en
          cpudl := cd } := by
  obtain ⟨ec, en, cd, heq⟩ := h.dequeue_entity_eq hp
  obtain ⟨t, hshape, hinorder, heq'⟩ := dequeue_pushable_eq (rq.__dequeue_dl_entity p)
    (by rw [heq]; exact h.pshape) p
  refine ⟨ec, en, cd, t, hshape, ?_, ?_⟩
  · rw [hinorder, heq]
    rfl
  · rw [__dequeue_task_dl, heq', heq]

theorem Counts.dequeue_task_of_not_mem (h : Counts rq) (hp : p ∉ rq.queue) :
    rq.__dequeue_task_dl p = rq := by
  have hentity : rq.__dequeue_dl_entity p = rq := if_neg hp
  have hpush : rq.dequeue_pushable_dl_task p = rq := if_neg fun hpush => hp (h.push p hpush).1
  rw [__dequeue_task_dl, hentity, hpush]

theorem Counts.queue_dequeue (h : Counts rq) (p : Nat) :
    (rq.__dequeue_task_dl p).queue = rq.queue.erase p := by
  by_cases hp : p ∈ rq.queue
  · obtain ⟨ec, en, cd, t, -, -, heq⟩ := h.dequeue_task_eq hp
    rw [heq]
    exact h.shape.inorder_erase hp
  · rw [h.dequeue_task_of_not_mem hp, List.erase_of_not_mem hp]

theorem Counts.dequeue_task (h : Counts rq) (p : Nat) : Counts (rq.__dequeue_task_dl p) := by
  by_cases hp : p ∈ rq.queue
  case neg =>
    rw [h.dequeue_task_of_not_mem hp]
    exact h
  have hq := h.queue_dequeue p
  have hlen : (rq.queue.erase p).length = rq.queue.length - 1 := List.length_erase_of_mem hp
  obtain ⟨ec, en, cd, t, hshape, hinorder, heq⟩ := h.dequeue_task_eq hp
  have hmig : (rq.__dequeue_task_dl p).migratable = rq.migratable := by
    rw [heq]
    rfl
  refine ⟨?_, ?_, ?_, ?_, ?_, ?_, ?_⟩
  · rw [heq]
    exact h.shape.erase hp
  · rw [heq]
    exact hshape
  · rw [hq, hlen, ← h.running, heq]
  · rw [hq, hlen, ← h.total, heq]
  · rw [hq, hmig, List.countP_erase, ← h.migratory, heq]
    show (if rq.migratable p then rq.dl_nr_migratory - 1 else rq.dl_nr_migratory) = _
    split <;> simp [*]
  · rw [heq]
  · intro q hmem
    have hmem' : q ∈ rq.pushq.erase p := by
      rw [heq] at hmem
      rwa [← hinorder]
    obtain ⟨hne, hpush⟩ := h.pshape.nodup.mem_erase_iff.mp hmem'
    obtain ⟨hin, hq'⟩ := h.push q hpush
    rw [hq, hmig]
    exact ⟨h.shape.nodup.mem_erase_iff.mpr ⟨hne, hin⟩, hq'⟩

theorem Order.earliest_dec (h : Order NR_CPUS m rq) (hc : Counts rq) (hp : p ∈ rq.queue) :
    Earliest NR_CPUS m (rq.unlinked p).dec_dl_deadline (rq.unlinked p).queue := by
  rcases hc.dec_dl_deadline_cases hp with ⟨hq, heq⟩ | ⟨entry, rest, hq, heq⟩
  · rw [hq, heq]
    exact ⟨rfl, .inl rfl, h.toEarliest.unset h.cpu_lt⟩
  · have hentry : entry ∈ rq.queue := by
      have : entry ∈ (rq.unlinked p).queue := by simp [hq]
      rw [hc.queue_unlinked hp] at this
      exact List.mem_of_mem_erase this
    have hshape : (rq.unlinked p).rb.Shape := hc.shape.erase hp
    have hnext := next_deadline_spec hshape
    rw [hq] at hnext ⊢
    rw [heq]
    exact ⟨rfl, hnext, h.toEarliest.set (h.range entry hentry).2⟩

theorem Order.dequeue_entity (h : Order NR_CPUS m rq) (hc : Counts rq) (hp : p ∈ rq.queue) :
    Order NR_CPUS m (rq.__dequeue_dl_entity p) := by
  have hq := hc.queue_unlinked hp
  have hearliest := h.earliest_dec hc hp
  obtain ⟨ec, en, cd, heq⟩ := hc.dec_dl_deadline_eq hp
  rw [dequeue_entity_unlinked hp]
  rw [heq] at hearliest ⊢
  refine ⟨⟨hearliest.curr, hearliest.next, hearliest.cpudl⟩, h.cpu_lt, ?_, ?_, h.psorted⟩
  · intro q hmem
    have hmem : q ∈ (rq.unlinked p).queue := hmem
    rw [hq] at hmem
    exact h.range q (List.mem_of_mem_erase hmem)
  · show SortedBy rq.deadline (rq.unlinked p).queue
    rw [hq]
    exact h.sorted.sublist List.erase_sublist

theorem Order.dequeue_pushable (h : Order NR_CPUS m rq) (hshape : rq.pushable.Shape) (p : Nat) :
    Order NR_CPUS m (rq.dequeue_pushable_dl_task p) := by
  obtain ⟨t, -, hinorder, heq⟩ := dequeue_pushable_eq rq hshape p
  rw [heq]
  refine ⟨⟨h.curr, h.next, h.cpudl⟩, h.cpu_lt, h.range, h.sorted, ?_⟩
  show SortedBy rq.deadline t.root.inorder
  rw [hinorder]
  exact h.psorted.sublist List.erase_sublist

theorem Order.dequeue_task (h : Order NR_CPUS m rq) (hc : Counts rq) (p : Nat) :
    Order NR_CPUS m (rq.__dequeue_task_dl p) := by
  by_cases hp : p ∈ rq.queue
  · refine (h.dequeue_entity hc hp).dequeue_pushable ?_ p
    obtain ⟨_, _, _, heq⟩ := hc.dequeue_entity_eq hp
    rw [heq]
    exact hc.pshape
  · rw [hc.dequeue_task_of_not_mem hp]
    exact h

/-! ## The second tree -/

theorem Counts.dequeue_pushable (h : Counts rq) (p : Nat) :
    Counts (rq.dequeue_pushable_dl_task p) := by
  obtain ⟨t, hshape, hinorder, heq⟩ := dequeue_pushable_eq rq h.pshape p
  rw [heq]
  refine ⟨h.shape, hshape, h.running, h.total, h.migratory, h.overloaded, ?_⟩
  intro q hq
  have hq : q ∈ t.root.inorder := hq
  rw [hinorder] at hq
  exact h.push q (List.mem_of_mem_erase hq)

theorem Counts.enqueue_pushable (h : Counts rq) (hp : p ∈ rq.queue)
    (hmig : rq.migratable p = true) (hpush : p ∉ rq.pushq) :
    Counts (rq.enqueue_pushable_dl_task p) := by
  refine ⟨h.shape, h.pshape.insert _ hpush, h.running, h.total, h.migratory, h.overloaded, ?_⟩
  intro q hq
  rcases List.mem_cons.mp ((rq.pushable.perm_insert _ p).mem_iff.mp hq) with rfl | hq
  · exact ⟨hp, hmig⟩
  · exact h.push q hq

theorem Order.enqueue_pushable (h : Order NR_CPUS m rq) (hc : Counts rq) (hp : p ∈ rq.queue) :
    Order NR_CPUS m (rq.enqueue_pushable_dl_task p) := by
  refine ⟨⟨h.curr, h.next, h.cpudl⟩, h.cpu_lt, h.range, h.sorted, ?_⟩
  have hinorder : (rq.enqueue_pushable_dl_task p).pushq =
      rq.pushq.orderedInsert (fun a b => rq.deadline a < rq.deadline b) p :=
    rq.pushable.inorder_insert
      (fun a ha => earlier_iff (h.range p hp) (h.range a (hc.push a ha).1)) h.psorted
  rw [hinorder]
  exact sorted_orderedInsert p h.psorted

/-! ## Changes to a task -/

/-- Whether a task may run elsewhere. -/
def mayMove (t : Task) : Bool := decide (1 < t.nr_cpus_allowed)

theorem Counts.setTask (h : Counts rq) {f : Task → Task}
    (hmove : p ∈ rq.queue → mayMove (f (rq.task p)) = mayMove (rq.task p)) :
    Counts (rq.setTask p f) := by
  have hmig : ∀ q ∈ rq.queue, (rq.setTask p f).migratable q = rq.migratable q := by
    intro q hq
    by_cases hqp : q = p
    · subst hqp
      have htask : (rq.setTask q f).task q = f (rq.task q) := Function.update_self ..
      show mayMove ((rq.setTask q f).task q) = mayMove (rq.task q)
      rw [htask]
      exact hmove hq
    · simp [migratable, Rq.setTask, hqp]
  refine ⟨h.shape, h.pshape, h.running, h.total, ?_, h.overloaded, ?_⟩
  · show rq.dl_nr_migratory = _
    rw [h.migratory]
    exact (List.countP_congr fun q hq => by rw [hmig q hq]).symm
  · intro q hq
    obtain ⟨hmem, hq'⟩ := h.push q hq
    exact ⟨hmem, (hmig q hmem).trans hq'⟩

theorem Order.setTask (h : Order NR_CPUS m rq) (hc : Counts rq) {f : Task → Task}
    (hdl : p ∈ rq.queue → (f (rq.task p)).dl.deadline = (rq.task p).dl.deadline) :
    Order NR_CPUS m (rq.setTask p f) := by
  have hdl' : ∀ q ∈ rq.queue, (rq.setTask p f).deadline q = rq.deadline q := by
    intro q hq
    by_cases hqp : q = p
    · subst hqp
      simp [deadline, Rq.setTask, hdl hq]
    · simp [deadline, Rq.setTask, hqp]
  have hhead : rq.queue.head?.map (rq.setTask p f).deadline = rq.queue.head?.map rq.deadline := by
    cases hq : rq.queue with
    | nil => rfl
    | cons first rest =>
        rw [List.head?_cons, Option.map_some, Option.map_some, hdl' first (by simp [hq])]
  refine ⟨⟨?_, ?_, ?_⟩, h.cpu_lt, ?_, ?_, ?_⟩
  · show rq.earliest_curr = (rq.queue.head?.map (rq.setTask p f).deadline).getD 0
    rw [hhead]
    exact h.curr
  · rcases h.next with hz | ⟨q, hq, hqd⟩
    · exact .inl hz
    · exact .inr ⟨q, hq, (hdl' q (List.mem_of_mem_tail hq)).trans hqd⟩
  · show Represents NR_CPUS rq.cpudl
      (Function.update m rq.cpu (rq.queue.head?.map (rq.setTask p f).deadline))
    rw [hhead]
    exact h.cpudl
  · intro q hq
    rw [hdl' q hq]
    exact h.range q hq
  · exact h.sorted.congr hdl'
  · exact h.psorted.congr fun q hq => hdl' q (hc.push q hq).1

end Rq

end KernelLab.Deadline
