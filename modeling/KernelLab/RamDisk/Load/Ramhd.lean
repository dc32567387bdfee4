/-
# `KernelLab.RamDisk.Load.Ramhd` — loading `ramhd_mkreq.c` and `ramhd_req.c`

The two drivers acquire the same things and look at different answers:

    ramhd_mkreq   ramhd_space_init is looked at; alloc_ramdev, the queue, the disk and
                  register_blkdev are not, and nothing is ever unwound
    ramhd_req     nothing is looked at

## What is proved

    mkreq_clean_iff   clean iff the first vmalloc fails, or nothing does
    req_clean_iff     clean iff nothing fails

An allocation loop gets as far as the calls succeed (`allocLoop_eq`).  Both drivers set up
a device under the same condition and with the same result (`mkreq_body`, `req_body`),
so one lemma about the loop (`exec_body`) serves the two.  What the exit functions do
behind a complete load is a list of releases, in two orders (`exec_releases`).
-/
import KernelLab.RamDisk.Load.Kernel

namespace KernelLab.RamDisk.Load

open KernelLab.Run

def RAMHD_MAX_PARTITIONS : Nat := 4

structure RAMHD_DEV (N : Nat) where
  data : Ptr (Fin N)
  queue : Ptr (Fin N)
  gd : Ptr (Fin N)

structure Static (N : Nat) where
  sdisk : Fin N → Ptr (Fin N)
  rdev : Fin N → Ptr (Fin N)
  ramhd_major : Int

abbrev Ramhd (N : Nat) := Kernel (Static N) (Fin N) (RAMHD_DEV N)

variable {N : Nat}

/-- Before the load.  `kzalloc` and `alloc_disk` return zeroed objects. -/
def unloaded (N : Nat) : Ramhd N where
  glob := ⟨fun _ => none, fun _ => none, 0⟩
  dev _ := ⟨none, none, none⟩
  gendisk _ := ⟨0, 0, none, none⟩
  ledger := .empty

/-- The loop of `ramhd_space_init` and of `alloc_ramdev`, over the array they fill. -/
def allocLoop (ok : Fin N → Bool) (kind : Fin N → Res (Fin N)) :
    List (Fin N) → (Fin N → Ptr (Fin N)) → Ledger (Res (Fin N)) →
      Int × (Fin N → Ptr (Fin N)) × Ledger (Res (Fin N))
  | [], arr, L => (0, arr, L)
  | i :: is, arr, L =>
      match answer ok i with
      | none => (- ENOMEM, Function.update arr i none, L)
      | some a => allocLoop ok kind is (Function.update arr i (some a)) (L.take (kind a))

def ramhd_space_init (c : Calls (Fin N)) (k : Ramhd N) : Int × Ramhd N :=
  let out := allocLoop c.vmalloc .data (List.finRange N) k.glob.sdisk k.ledger
  (out.1, { k with glob := { k.glob with sdisk := out.2.1 }, ledger := out.2.2 })

def alloc_ramdev (c : Calls (Fin N)) (k : Ramhd N) : Int × Ramhd N :=
  let out := allocLoop c.kzalloc .dev (List.finRange N) k.glob.rdev k.ledger
  (out.1, { k with glob := { k.glob with rdev := out.2.1 }, ledger := out.2.2 })

def ramhd_space_clean (k : Ramhd N) : Option (Ramhd N) :=
  exec (fun k i => k.free .data (k.glob.sdisk i)) k (List.finRange N)

def clean_ramdev (k : Ramhd N) : Option (Ramhd N) :=
  exec (fun k i => k.free .dev (k.glob.rdev i)) k (List.finRange N)

/-- The loop body of both exit functions. -/
def tearDown (k : Ramhd N) (i : Fin N) : Option (Ramhd N) := do
  let d ← k.ledger.deref .dev (k.glob.rdev i)
  let k ← k.del_gendisk (k.dev d).gd
  let k ← k.put_disk (k.dev d).gd
  k.blk_cleanup_queue (k.dev d).queue

/-- `rdev[i]` and its disk are filled in, and the disk is added. -/
def fillIn (k : Ramhd N) (i d : Fin N) (queue gd : Ptr (Fin N)) : Option (Ramhd N) := do
  let g ← k.ledger.deref .disk gd
  let k := { k with
    dev := Function.update k.dev d ⟨k.glob.sdisk i, queue, gd⟩
    gendisk := Function.update k.gendisk g
      ⟨k.glob.ramhd_major, i * RAMHD_MAX_PARTITIONS, queue, k.glob.rdev i⟩ }
  k.add_disk gd

namespace Mkreq

/-- The loop body of `ramhd_init`. -/
def body (c : Calls (Fin N)) (k : Ramhd N) (i : Fin N) : Option (Ramhd N) := do
  let d ← k.ledger.deref .dev (k.glob.rdev i)
  let queue := answer c.queue i
  let k := k.got .queue queue
  -- `blk_queue_make_request`
  let _ ← k.ledger.deref .queue queue
  let gd := answer c.alloc_disk i
  let k := k.got .disk gd
  fillIn k i d queue gd

def ramhd_init (c : Calls (Fin N)) : Option (Int × Ramhd N) :=
  let (err, k) := ramhd_space_init c (unloaded N)
  if err ≠ 0 then some (err, k)
  else
    let (_, k) := alloc_ramdev c k
    let k := k.register_blkdev c
    let k := { k with glob := { k.glob with ramhd_major := c.register_blkdev } }
    (exec (body c) k (List.finRange N)).map fun k => (0, k)

def ramhd_exit (k : Ramhd N) : Option (Ramhd N) := do
  let k ← exec tearDown k (List.finRange N)
  let k ← clean_ramdev k
  let k ← ramhd_space_clean k
  k.unregister_blkdev

end Mkreq

namespace Req

/-- The loop body of `ramhd_init`. -/
def body (c : Calls (Fin N)) (k : Ramhd N) (i : Fin N) : Option (Ramhd N) := do
  let d ← k.ledger.deref .dev (k.glob.rdev i)
  let gd := answer c.alloc_disk i
  let k := k.got .disk gd
  let queue := answer c.queue i
  let k := k.got .queue queue
  fillIn k i d queue gd

def ramhd_init (c : Calls (Fin N)) : Option (Int × Ramhd N) :=
  let (_, k) := ramhd_space_init c (unloaded N)
  let (_, k) := alloc_ramdev c k
  let k := k.register_blkdev c
  let k := { k with glob := { k.glob with ramhd_major := c.register_blkdev } }
  (exec (body c) k (List.finRange N)).map fun k => (0, k)

def ramhd_exit (k : Ramhd N) : Option (Ramhd N) := do
  let k ← exec tearDown k (List.finRange N)
  let k ← k.unregister_blkdev
  let k ← clean_ramdev k
  ramhd_space_clean k

end Req

/-- `rdev[i]` is the object `d`, with its memory `a`, its queue `q` and its disk `g`, all
of them there and connected. -/
structure Connected (k : Ramhd N) (i d a q g : Fin N) : Prop where
  rdev : k.glob.rdev i = some d
  dev : k.dev d = ⟨some a, some q, some g⟩
  gendisk : k.gendisk g =
    ⟨k.glob.ramhd_major, i * RAMHD_MAX_PARTITIONS, some q, some d⟩
  live : ∀ r ∈ [Res.dev d, .data a, .queue q, .disk g, .added g], k.ledger.live r = true

structure AllSetUp (k : Ramhd N) : Prop where
  registered : k.ledger.live .major = true
  connected : ∀ i, ∃ d a q g, Connected k i d a q g

def ramhdMkreq (c : Calls (Fin N)) : Loadable (Ramhd N) (Res (Fin N)) :=
  ⟨Mkreq.ramhd_init c, Mkreq.ramhd_exit, Kernel.ledger, AllSetUp⟩

def ramhdReq (c : Calls (Fin N)) : Loadable (Ramhd N) (Res (Fin N)) :=
  ⟨Req.ramhd_init c, Req.ramhd_exit, Kernel.ledger, AllSetUp⟩

/-! ## The allocation loops -/

/-- The loop gets as far as the calls succeed, and reports whether that was the end. -/
theorem allocLoop_eq (ok : Fin N → Bool) (kind : Fin N → Res (Fin N)) {is : List (Fin N)}
    (hnd : is.Nodup) : ∀ (arr : Fin N → Ptr (Fin N)) (L : Ledger (Res (Fin N))),
      (∀ i ∈ is, arr i = none) → allocLoop ok kind is arr L =
        (if ∀ i ∈ is, ok i = true then 0 else - ENOMEM,
          fun i => if i ∈ is.takeWhile ok then some i else arr i,
          L.takeAll ((is.takeWhile ok).map kind)) := by
  induction is with
  | nil =>
      intro arr L _
      simp [allocLoop]
  | cons i is ih =>
      intro arr L harr
      obtain ⟨hi, hnd'⟩ := List.nodup_cons.mp hnd
      cases hok : ok i with
      | false =>
          have hself : Function.update arr i none = arr := by
            rw [← harr i List.mem_cons_self, Function.update_eq_self]
          simp [allocLoop, answer_null hok, hok, hself]
      | true =>
          have harr' : ∀ j ∈ is, Function.update arr i (some i) j = none := by
            intro j hj
            have hji : j ≠ i := by
              rintro rfl
              exact hi hj
            rw [Function.update_of_ne hji]
            exact harr j (List.mem_cons_of_mem _ hj)
          rw [allocLoop, answer_ok hok]
          simp only [ih hnd' _ _ harr', List.takeWhile_cons, hok, if_true, List.forall_mem_cons,
            true_and, List.map_cons, Ledger.takeAll_cons]
          congr 2
          funext j
          by_cases hji : j = i
          · subst hji
            simp
          · simp [hji]

/-! ## Setting up the devices -/

/-- The `i`-th device after its iteration, when nothing is missing. -/
def setUp (k : Ramhd N) (i : Fin N) : Ramhd N :=
  { k with
    dev := Function.update k.dev i ⟨k.glob.sdisk i, some i, some i⟩
    gendisk := Function.update k.gendisk i
      ⟨k.glob.ramhd_major, i * RAMHD_MAX_PARTITIONS, some i, some i⟩
    ledger := k.ledger.takeAll [.queue i, .disk i, .added i] }

def Ready (c : Calls (Fin N)) (k : Ramhd N) (i : Fin N) : Prop :=
  k.glob.rdev i = some i ∧ c.queue i = true ∧ c.alloc_disk i = true

instance decReady (c : Calls (Fin N)) (k : Ramhd N) (i : Fin N) : Decidable (Ready c k i) :=
  inferInstanceAs (Decidable (_ ∧ _))

/-- What `alloc_ramdev` leaves in `rdev[i]`. -/
def Own (k : Ramhd N) (i : Fin N) : Prop :=
  k.glob.rdev i = none ∨ k.glob.rdev i = some i ∧ k.ledger.live (.dev i) = true

theorem fillIn_none (k : Ramhd N) (i d : Fin N) (queue : Ptr (Fin N)) :
    fillIn k i d queue none = none := rfl

theorem fillIn_queue_none (k : Ramhd N) (i d : Fin N) (gd : Ptr (Fin N)) :
    fillIn k i d none gd = none := by
  cases h : k.ledger.deref .disk gd with
  | none => simp [fillIn, h]
  | some g => simp [fillIn, Kernel.add_disk, h, Ledger.deref_none]

theorem fillIn_eq {k : Ramhd N} {i : Fin N} {L : Ledger (Res (Fin N))}
    (hr : k.glob.rdev i = some i) (hq : L.live (.queue i) = true) (hg : L.live (.disk i) = true) :
    fillIn { k with ledger := L } i i (some i) (some i) = some
      { k with
        dev := Function.update k.dev i ⟨k.glob.sdisk i, some i, some i⟩
        gendisk := Function.update k.gendisk i
          ⟨k.glob.ramhd_major, i * RAMHD_MAX_PARTITIONS, some i, some i⟩
        ledger := L.take (.added i) } := by
  simp [fillIn, Kernel.add_disk, Ledger.deref_some hg, Ledger.deref_some hq, hr]

theorem mkreq_body (c : Calls (Fin N)) {k : Ramhd N} {i : Fin N} (hown : Own k i) :
    Mkreq.body c k i = if Ready c k i then some (setUp k i) else none := by
  rcases hown with hnull | ⟨hr, hd⟩
  · simp [Mkreq.body, Ready, hnull, Ledger.deref_none]
  · cases hq : c.queue i with
    | false =>
        simp [Mkreq.body, Ready, hr, Ledger.deref_some hd, hq, answer_null hq, Ledger.deref_none]
    | true =>
        have hlive : (k.ledger.take (.queue i)).live (.queue i) = true := by simp [Ledger.live_take]
        cases hg : c.alloc_disk i with
        | false =>
            simp [Mkreq.body, Ready, hr, Ledger.deref_some hd, hg, answer_null hg, fillIn_none]
        | true =>
            simp only [Mkreq.body, hr, Ledger.deref_some hd, answer_ok hq, answer_ok hg,
              Kernel.got, Ledger.deref_some hlive, Ready, hq, hg, and_self, if_true,
              Option.bind_eq_bind, Option.bind_some]
            rw [fillIn_eq hr (by simp [Ledger.live_take]) (by simp [Ledger.live_take])]
            rfl

theorem req_body (c : Calls (Fin N)) {k : Ramhd N} {i : Fin N} (hown : Own k i) :
    Req.body c k i = if Ready c k i then some (setUp k i) else none := by
  rcases hown with hnull | ⟨hr, hd⟩
  · simp [Req.body, Ready, hnull, Ledger.deref_none]
  · cases hg : c.alloc_disk i with
    | false =>
        simp [Req.body, Ready, hr, Ledger.deref_some hd, hg, answer_null hg, fillIn_none]
    | true =>
        cases hq : c.queue i with
        | false =>
            simp [Req.body, Ready, hr, Ledger.deref_some hd, hq, answer_null hq, fillIn_queue_none]
        | true =>
            simp only [Req.body, hr, Ledger.deref_some hd, answer_ok hq, answer_ok hg,
              Kernel.got, Ready, hq, hg, and_self, if_true, Option.bind_eq_bind, Option.bind_some]
            rw [fillIn_eq hr (by simp [Ledger.live_take]) (by simp [Ledger.live_take]),
              Ledger.take_comm k.ledger]
            rfl

/-- The loop of either driver, over the devices `is`. -/
theorem exec_body {c : Calls (Fin N)} {body : Ramhd N → Fin N → Option (Ramhd N)}
    (hbody : ∀ {k i}, Own k i → body k i = if Ready c k i then some (setUp k i) else none)
    (is : List (Fin N)) : ∀ k : Ramhd N, (∀ i, Own k i) →
      exec body k is = if ∀ i ∈ is, Ready c k i then some (is.foldl setUp k) else none := by
  induction is with
  | nil =>
      intro k _
      simp
  | cons i is ih =>
      intro k hown
      have hown' : ∀ j, Own (setUp k i) j := by
        intro j
        refine (hown j).imp id (And.imp id ?_)
        intro hlive
        exact (Ledger.live_takeAll ..).mpr (.inr hlive)
      have hready : ∀ j, Ready c (setUp k i) j ↔ Ready c k j := fun _ => Iff.rfl
      rw [exec, hbody (hown i)]
      by_cases hi : Ready c k i
      · rw [if_pos hi, Option.bind_some, ih _ hown']
        simp only [hready, List.forall_mem_cons, hi, true_and, List.foldl_cons]
      · simp [hi]

theorem foldl_setUp_glob (is : List (Fin N)) (k : Ramhd N) : (is.foldl setUp k).glob = k.glob := by
  induction is generalizing k with
  | nil => rfl
  | cons i is ih => rw [List.foldl_cons, ih, setUp]

theorem foldl_setUp_dev {is : List (Fin N)} {i : Fin N} (k : Ramhd N) (h : i ∈ is) :
    (is.foldl setUp k).dev i = ⟨k.glob.sdisk i, some i, some i⟩ ∧
      (is.foldl setUp k).gendisk i =
        ⟨k.glob.ramhd_major, i * RAMHD_MAX_PARTITIONS, some i, some i⟩ := by
  -- from the right: the last iteration writes its own device only
  induction is using List.reverseRecOn with
  | nil => cases h
  | append_singleton is j ih =>
      rw [List.foldl_append, List.foldl_cons, List.foldl_nil]
      by_cases hij : i = j
      · subst hij
        simp [setUp, foldl_setUp_glob]
      · have hi : i ∈ is := by simpa [hij] using h
        simpa [setUp, hij] using ih hi

theorem foldl_setUp_ledger (is : List (Fin N)) (k : Ramhd N) :
    (is.foldl setUp k).ledger =
      k.ledger.takeAll (is.flatMap fun i => [.queue i, .disk i, .added i]) := by
  induction is generalizing k with
  | nil => rfl
  | cons i is ih => rw [List.foldl_cons, ih, List.flatMap_cons, Ledger.takeAll_append, setUp]

/-! ## The load -/

/-- The devices a call succeeds for, before the first it fails for. -/
def served (ok : Fin N → Bool) : List (Fin N) := (List.finRange N).takeWhile ok

theorem mem_served_imp {ok : Fin N → Bool} {i : Fin N} (h : i ∈ served ok) : ok i = true :=
  List.mem_takeWhile_imp h

theorem served_eq_all {ok : Fin N → Bool} (h : ∀ i, ok i = true) : served ok = List.finRange N :=
  List.takeWhile_eq_self_iff.mpr fun i _ => h i

theorem mem_served {ok : Fin N → Bool} (h : ∀ i, ok i = true) (i : Fin N) : i ∈ served ok := by
  rw [served_eq_all h]
  exact List.mem_finRange i

theorem allocLoop_all (ok : Fin N → Bool) (kind : Fin N → Res (Fin N))
    (L : Ledger (Res (Fin N))) :
    allocLoop ok kind (List.finRange N) (fun _ => none) L =
      (if ∀ i, ok i = true then 0 else - ENOMEM,
        fun i => if i ∈ served ok then some i else none, L.takeAll ((served ok).map kind)) := by
  rw [allocLoop_eq ok kind (List.nodup_finRange N) _ L fun _ _ => rfl]
  simp only [List.mem_finRange, forall_const]
  rfl

/-- `ramhd_space_init` behind it. -/
def spaced (c : Calls (Fin N)) : Ramhd N :=
  { unloaded N with
    glob := ⟨fun i => if i ∈ served c.vmalloc then some i else none, fun _ => none, 0⟩
    ledger := Ledger.empty.takeAll ((served c.vmalloc).map .data) }

/-- Before the loop over the devices. -/
def allocated (c : Calls (Fin N)) : Ramhd N :=
  { unloaded N with
    glob := ⟨fun i => if i ∈ served c.vmalloc then some i else none,
      fun i => if i ∈ served c.kzalloc then some i else none, c.register_blkdev⟩
    ledger :=
      ((Ledger.empty.takeAll ((served c.vmalloc).map .data)).takeAll
        ((served c.kzalloc).map .dev)).takeAll (if 0 ≤ c.register_blkdev then [.major] else []) }

def loaded (c : Calls (Fin N)) : Ramhd N := (List.finRange N).foldl setUp (allocated c)

theorem space_init_eq (c : Calls (Fin N)) :
    ramhd_space_init c (unloaded N) =
      (if ∀ i, c.vmalloc i = true then 0 else - ENOMEM, spaced c) := by
  simp only [ramhd_space_init, unloaded, allocLoop_all, spaced]

theorem alloc_ramdev_eq (c : Calls (Fin N)) :
    let k := (alloc_ramdev c (spaced c)).2.register_blkdev c
    { k with glob := { k.glob with ramhd_major := c.register_blkdev } } = allocated c := by
  simp only [alloc_ramdev, spaced, allocLoop_all, Kernel.register_blkdev, allocated]
  by_cases hm : 0 ≤ c.register_blkdev
  · simp only [if_pos hm, Ledger.takeAll_cons, Ledger.takeAll_nil]
  · simp only [if_neg hm, Ledger.takeAll_nil]

theorem mkreq_init_eq (c : Calls (Fin N)) :
    Mkreq.ramhd_init c = if ∀ i, c.vmalloc i = true
      then (exec (Mkreq.body c) (allocated c) (List.finRange N)).map fun k => (0, k)
      else some (- ENOMEM, spaced c) := by
  have hneg : - ENOMEM ≠ 0 := by decide
  rw [Mkreq.ramhd_init, space_init_eq]
  by_cases hv : ∀ i, c.vmalloc i = true
  · simp only [if_pos hv, ← alloc_ramdev_eq]
    rfl
  · simp only [if_neg hv, if_pos hneg]

theorem req_init_eq (c : Calls (Fin N)) :
    Req.ramhd_init c =
      (exec (Req.body c) (allocated c) (List.finRange N)).map fun k => (0, k) := by
  rw [Req.ramhd_init, space_init_eq, ← alloc_ramdev_eq]

theorem own_allocated (c : Calls (Fin N)) (i : Fin N) : Own (allocated c) i := by
  by_cases hi : i ∈ served c.kzalloc
  · refine .inr ⟨if_pos hi, ?_⟩
    simp only [allocated, Ledger.live_takeAll, List.mem_map]
    exact .inr (.inl ⟨i, hi, rfl⟩)
  · exact .inl (if_neg hi)

/-- The loop of either driver comes through iff nothing it needs is missing. -/
theorem exec_allocated {c : Calls (Fin N)} {body : Ramhd N → Fin N → Option (Ramhd N)}
    (hbody : ∀ {k i}, Own k i → body k i = if Ready c k i then some (setUp k i) else none) :
    exec body (allocated c) (List.finRange N) =
      if ∀ i, c.kzalloc i = true ∧ c.queue i = true ∧ c.alloc_disk i = true
      then some (loaded c) else none := by
  have hready : (∀ i ∈ List.finRange N, Ready c (allocated c) i) ↔
      ∀ i, c.kzalloc i = true ∧ c.queue i = true ∧ c.alloc_disk i = true := by
    constructor
    · intro h i
      obtain ⟨hr, hqg⟩ := h i (List.mem_finRange i)
      refine ⟨?_, hqg⟩
      by_contra hk
      have hnot : i ∉ served c.kzalloc := fun hi => hk (mem_served_imp hi)
      simp [allocated, hnot] at hr
    · intro h i _
      exact ⟨if_pos (mem_served (fun i => (h i).1) i), (h i).2⟩
  rw [exec_body hbody _ _ (own_allocated c)]
  simp only [hready, loaded]

theorem rdev_loaded {c : Calls (Fin N)} (h : ∀ i, c.kzalloc i = true) (i : Fin N) :
    (loaded c).glob.rdev i = some i := by
  rw [loaded, foldl_setUp_glob]
  exact if_pos (mem_served h i)

theorem sdisk_loaded {c : Calls (Fin N)} (h : ∀ i, c.vmalloc i = true) (i : Fin N) :
    (loaded c).glob.sdisk i = some i := by
  rw [loaded, foldl_setUp_glob]
  exact if_pos (mem_served h i)

theorem loaded_live {c : Calls (Fin N)} (h : NoneFails c) (r : Res (Fin N)) :
    (loaded c).ledger.live r = true := by
  obtain ⟨hall, hm⟩ := h
  rw [loaded, foldl_setUp_ledger]
  simp only [allocated, Ledger.live_takeAll, served_eq_all fun i => (hall i).1,
    served_eq_all fun i => (hall i).2.1, if_pos hm]
  cases r <;> simp

/-- The loop through, the devices are complete iff the two calls nobody looked at have
succeeded. -/
theorem allSetUp_loaded_iff {c : Calls (Fin N)}
    (h : ∀ i, c.kzalloc i = true ∧ c.queue i = true ∧ c.alloc_disk i = true) :
    AllSetUp (loaded c) ↔ (∀ i, c.vmalloc i = true) ∧ 0 ≤ c.register_blkdev := by
  have hrdev := rdev_loaded fun i => (h i).1
  have hdev := fun i => foldl_setUp_dev (allocated c) (List.mem_finRange i)
  constructor
  · rintro ⟨hmajor, hall⟩
    constructor
    · intro i
      obtain ⟨d, a, q, g, hcon⟩ := hall i
      obtain rfl := Option.some.inj ((hrdev i).symm.trans hcon.rdev)
      have hdata := congrArg RAMHD_DEV.data ((hdev i).1.symm.trans hcon.dev)
      by_contra hv
      have hnot : i ∉ served c.vmalloc := fun hi => hv (mem_served_imp hi)
      simp [allocated, hnot] at hdata
    · by_contra hm
      rw [loaded, foldl_setUp_ledger] at hmajor
      simp [Ledger.live_takeAll, allocated, hm, Ledger.empty] at hmajor
  · rintro ⟨hv, hm⟩
    have hlive := loaded_live ⟨fun i => ⟨hv i, h i⟩, hm⟩
    refine ⟨hlive _, ?_⟩
    intro i
    refine ⟨i, i, i, i, hrdev i, ?_, ?_, fun r _ => hlive r⟩
    · refine (hdev i).1.trans ?_
      rw [← sdisk_loaded hv i, loaded, foldl_setUp_glob]
    · refine (hdev i).2.trans ?_
      rw [loaded, foldl_setUp_glob]

/-! ## The unload -/

/-- What the exit functions count on of device `i`. -/
structure Filled (k : Ramhd N) (i : Fin N) : Prop where
  rdev : k.glob.rdev i = some i
  queue : (k.dev i).queue = some i
  gd : (k.dev i).gd = some i
  live : k.ledger.live (.dev i) = true

theorem tearDown_eq {k : Ramhd N} {i : Fin N} {L₁ L₂ L₃ : Ledger (Res (Fin N))}
    (h : Filled k i) (h₁ : k.ledger.release (.added i) = some L₁)
    (h₂ : L₁.release (.disk i) = some L₂) (h₃ : L₂.release (.queue i) = some L₃) :
    tearDown k i = some { k with ledger := L₃ } := by
  have hdisk : k.ledger.live (.disk i) = true := by
    rw [← Ledger.live_release h₁ (by simp)]
    exact Ledger.live_of_release h₂
  simp [tearDown, h.rdev, h.gd, h.queue, Ledger.deref_some h.live, Kernel.del_gendisk,
    Ledger.deref_some hdisk, Kernel.release, h₁, Kernel.put_disk, Kernel.free, h₂,
    Kernel.blk_cleanup_queue, Ledger.deref_some (Ledger.live_of_release h₃), h₃]

theorem exec_tearDown (is : List (Fin N)) : ∀ {k : Ramhd N} {L : Ledger (Res (Fin N))},
    (∀ i ∈ is, Filled k i) →
    exec Ledger.release k.ledger (is.flatMap fun i => [.added i, .disk i, .queue i]) = some L →
    exec tearDown k is = some { k with ledger := L } := by
  induction is with
  | nil =>
      intro k L _ h
      cases h
      rfl
  | cons i is ih =>
      intro k L hfill h
      obtain ⟨L₁, h₁, h⟩ := Option.bind_eq_some_iff.mp h
      obtain ⟨L₂, h₂, h⟩ := Option.bind_eq_some_iff.mp h
      obtain ⟨L₃, h₃, h⟩ := Option.bind_eq_some_iff.mp h
      rw [exec, tearDown_eq (hfill i List.mem_cons_self) h₁ h₂ h₃, Option.bind_some]
      refine ih ?_ h
      intro j hj
      have hf := hfill j (List.mem_cons_of_mem _ hj)
      refine ⟨hf.rdev, hf.queue, hf.gd, ?_⟩
      -- the three releases are of other kinds
      rw [Ledger.live_release h₃ (by simp), Ledger.live_release h₂ (by simp),
        Ledger.live_release h₁ (by simp)]
      exact hf.live

/-- A loop that frees what an array of the module points at. -/
theorem exec_free (kind : Fin N → Res (Fin N)) (arr : Static N → Fin N → Ptr (Fin N))
    (is : List (Fin N)) : ∀ {k : Ramhd N} {L L' : Ledger (Res (Fin N))},
    (∀ i, arr k.glob i = some i) → exec Ledger.release L (is.map kind) = some L' →
    exec (fun k i => k.free kind (arr k.glob i)) { k with ledger := L } is =
      some { k with ledger := L' } := by
  induction is with
  | nil =>
      intro k L L' _ h
      cases h
      rfl
  | cons i is ih =>
      intro k L L' harr h
      obtain ⟨L₁, h₁, h⟩ := Option.bind_eq_some_iff.mp h
      simp only [exec, harr i, Kernel.free, Kernel.release, h₁, Option.map_some, Option.bind_some]
      exact ih harr h

/-- What `tearDown` gives back. -/
def disks (N : Nat) : List (Res (Fin N)) :=
  (List.finRange N).flatMap fun i => [.added i, .disk i, .queue i]

theorem nodup_disks : (disks N).Nodup := by
  rw [disks, List.nodup_flatMap]
  refine ⟨fun i _ => by simp, ?_⟩
  refine (List.nodup_finRange N).imp ?_
  intro i j hij
  simp [Function.onFun, List.disjoint_left, hij]

/-- The releases of an unload, in the order of `ramhd_mkreq`. -/
def releases (N : Nat) : List (Res (Fin N)) :=
  disks N ++ ((List.finRange N).map .dev ++ ((List.finRange N).map .data ++ [.major]))

theorem nodup_releases : (releases N).Nodup := by
  have hdev : ((List.finRange N).map Res.dev).Nodup :=
    (List.nodup_finRange N).map fun _ _ h => Res.dev.inj h
  have hdata : ((List.finRange N).map Res.data).Nodup :=
    (List.nodup_finRange N).map fun _ _ h => Res.data.inj h
  refine nodup_disks.append (hdev.append (hdata.append (List.nodup_singleton _) ?_) ?_) ?_
  all_goals
    rw [List.disjoint_left]
    intro r
    cases r <;> simp [disks]

section NoneFails

variable {c : Calls (Fin N)} (h : NoneFails c)

include h

theorem filled_loaded (i : Fin N) : Filled (loaded c) i := by
  obtain ⟨hdev, -⟩ := foldl_setUp_dev (allocated c) (List.mem_finRange i)
  exact ⟨rdev_loaded (fun i => (h.1 i).2.1) i, congrArg RAMHD_DEV.queue hdev,
    congrArg RAMHD_DEV.gd hdev, loaded_live h _⟩

/-- In whatever order, the releases give back everything exactly once. -/
theorem exec_releases {rs : List (Res (Fin N))} (hrs : rs.Perm (releases N)) :
    ∃ L, exec Ledger.release (loaded c).ledger rs = some L ∧
      (loaded c).ledger.ReleasedOnce L := by
  refine Ledger.releasedOnce_of_exec (hrs.nodup_iff.mpr nodup_releases) ?_
  intro r
  rw [loaded_live h, hrs.mem_iff]
  cases r <;> simp [releases, disks]

theorem mkreq_exit : ∃ k, Mkreq.ramhd_exit (loaded c) = some k ∧
    (loaded c).ledger.ReleasedOnce k.ledger := by
  obtain ⟨L, hexec, honce⟩ := exec_releases h (.refl _)
  simp only [releases, exec_append] at hexec
  obtain ⟨L₁, h₁, hexec⟩ := Option.bind_eq_some_iff.mp hexec
  obtain ⟨L₂, h₂, hexec⟩ := Option.bind_eq_some_iff.mp hexec
  obtain ⟨L₃, h₃, hexec⟩ := Option.bind_eq_some_iff.mp hexec
  obtain ⟨L₄, h₄, hexec⟩ := Option.bind_eq_some_iff.mp hexec
  obtain rfl := Option.some.inj hexec
  refine ⟨{ loaded c with ledger := L₄ }, ?_, honce⟩
  simp only [Mkreq.ramhd_exit, clean_ramdev, ramhd_space_clean, Kernel.unregister_blkdev,
    exec_tearDown _ (fun i _ => filled_loaded h i) h₁, Option.bind_eq_bind, Option.bind_some,
    exec_free .dev Static.rdev _ (fun i => (filled_loaded h i).rdev) h₂,
    exec_free .data Static.sdisk _ (sdisk_loaded fun i => (h.1 i).1) h₃, Kernel.release, h₄,
    Option.map_some]

theorem req_exit : ∃ k, Req.ramhd_exit (loaded c) = some k ∧
    (loaded c).ledger.ReleasedOnce k.ledger := by
  have hperm : (disks N ++ Res.major :: ((List.finRange N).map Res.dev ++
      (List.finRange N).map Res.data)).Perm (releases N) := by
    rw [releases, ← List.append_assoc ((List.finRange N).map Res.dev)]
    exact (List.perm_append_singleton _ _).symm.append_left _
  obtain ⟨L, hexec, honce⟩ := exec_releases h hperm
  rw [exec_append] at hexec
  obtain ⟨L₁, h₁, hexec⟩ := Option.bind_eq_some_iff.mp hexec
  obtain ⟨L₂, h₂, hexec⟩ := Option.bind_eq_some_iff.mp hexec
  rw [exec_append] at hexec
  obtain ⟨L₃, h₃, h₄⟩ := Option.bind_eq_some_iff.mp hexec
  refine ⟨{ loaded c with ledger := L }, ?_, honce⟩
  simp only [Req.ramhd_exit, clean_ramdev, ramhd_space_clean, Kernel.unregister_blkdev,
    exec_tearDown _ (fun i _ => filled_loaded h i) h₁, Option.bind_eq_bind, Option.bind_some,
    Kernel.release, h₂, Option.map_some,
    exec_free .dev Static.rdev _ (fun i => (filled_loaded h i).rdev) h₃,
    exec_free .data Static.sdisk _ (sdisk_loaded fun i => (h.1 i).1) h₄]

end NoneFails

/-! ## When the loads are clean -/

/-- The part behind the allocation of the disk memory, for a driver whose exit function
is up to a complete load. -/
theorem loadsClean_of_loop {D : Loadable (Ramhd N) (Res (Fin N))} {c : Calls (Fin N)}
    (hinit : D.init = if ∀ i, c.kzalloc i = true ∧ c.queue i = true ∧ c.alloc_disk i = true
      then some (0, loaded c) else none)
    (hledger : D.ledger = Kernel.ledger) (hsetup : D.SetUp = AllSetUp)
    (hexit : NoneFails c → ∃ k, D.exit (loaded c) = some k ∧
      (loaded c).ledger.ReleasedOnce k.ledger) :
    LoadsClean D ↔ NoneFails c := by
  constructor
  · rintro ⟨ret, k, hk, -, hok⟩
    by_cases hall : ∀ i, c.kzalloc i = true ∧ c.queue i = true ∧ c.alloc_disk i = true
    · rw [hinit, if_pos hall] at hk
      obtain ⟨rfl, rfl⟩ := Prod.mk.inj (Option.some.inj hk)
      obtain ⟨hset, -⟩ := hok rfl
      rw [hsetup] at hset
      obtain ⟨hv, hm⟩ := (allSetUp_loaded_iff hall).mp hset
      exact ⟨fun i => ⟨hv i, hall i⟩, hm⟩
    · rw [hinit, if_neg hall] at hk
      cases hk
  · intro h
    have hall := fun i => (h.1 i).2
    refine ⟨0, loaded c, by rw [hinit, if_pos hall], absurd rfl, fun _ => ⟨?_, ?_⟩⟩
    · rw [hsetup]
      exact (allSetUp_loaded_iff hall).mpr ⟨fun i => (h.1 i).1, h.2⟩
    · rw [hledger]
      exact hexit h

theorem req_clean_iff (c : Calls (Fin N)) : LoadsClean (ramhdReq c) ↔ NoneFails c := by
  refine loadsClean_of_loop ?_ rfl rfl req_exit
  rw [ramhdReq, req_init_eq, exec_allocated (req_body c)]
  split <;> rfl

theorem served_eq_nil_iff {ok : Fin N → Bool} (h : ¬ ∀ i, ok i = true) :
    served ok = [] ↔ ∃ i : Fin N, i.val = 0 ∧ ok i = false := by
  cases N with
  | zero => exact absurd (fun i => i.elim0) h
  | succ n =>
      rw [served, List.finRange_succ, List.takeWhile_cons]
      constructor
      · intro hnil
        refine ⟨0, rfl, ?_⟩
        by_contra hok
        simp [hok] at hnil
      · rintro ⟨i, hi, hok⟩
        obtain rfl : i = 0 := Fin.ext hi
        simp [hok]

/-- The first `vmalloc` of the load fails. -/
def FirstVmallocFails (c : Calls (Fin N)) : Prop := ∃ i : Fin N, i.val = 0 ∧ c.vmalloc i = false

theorem mkreq_clean_iff (c : Calls (Fin N)) :
    LoadsClean (ramhdMkreq c) ↔ FirstVmallocFails c ∨ NoneFails c := by
  by_cases hv : ∀ i, c.vmalloc i = true
  · have hfirst : ¬ FirstVmallocFails c := by
      rintro ⟨i, -, hi⟩
      rw [hv i] at hi
      cases hi
    rw [or_iff_right hfirst]
    refine loadsClean_of_loop ?_ rfl rfl mkreq_exit
    rw [ramhdMkreq, mkreq_init_eq, if_pos hv, exec_allocated (mkreq_body c)]
    split <;> rfl
  · have hnone : ¬ NoneFails c := fun h => hv fun i => (h.1 i).1
    have hinit : (ramhdMkreq c).init = some (- ENOMEM, spaced c) := by
      rw [ramhdMkreq, mkreq_init_eq, if_neg hv]
    rw [or_iff_left hnone, FirstVmallocFails, ← served_eq_nil_iff hv]
    constructor
    · rintro ⟨ret, k, hk, herr, -⟩
      rw [hinit] at hk
      obtain ⟨rfl, rfl⟩ := Prod.mk.inj (Option.some.inj hk)
      -- what the loop got is still held
      rw [List.eq_nil_iff_forall_not_mem]
      intro i hi
      have hlive : (spaced c).ledger.live (.data i) = true :=
        (Ledger.live_takeAll ..).mpr (.inl (List.mem_map_of_mem hi))
      have hoff : (spaced c).ledger.live (.data i) = false := herr (by decide) (.data i)
      rw [hlive] at hoff
      cases hoff
    · intro hnil
      refine ⟨_, _, hinit, ?_, fun h => absurd h (by decide)⟩
      intro _ r
      change (spaced c).ledger.live r = false
      rw [spaced, hnil]
      rfl

end KernelLab.RamDisk.Load
