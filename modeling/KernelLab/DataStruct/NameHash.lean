/-
# `KernelLab.DataStruct.NameHash` — the device-name table of `hlist.c`

Devices hang in 256 chains, by a hash of their names.  A name is an array of 16 bytes
that need not hold a terminator; a query is a string of any length.  The table is
entered and searched with two notions of a name:

    dev_name_hash      a hash of the first strnlen(name, 16) bytes, low 8 bits
    dev_get_by_name    down the chain, the first device with strncmp(.., 16) = 0

They agree because both depend on what is visible of a name, the bytes before the
terminator and not more than 16 (`dev_name_hash_eq`, `strncmp_eq_zero_iff`).

The chains are modelled with their pointers: `first` of each head, `next` of each
device's `name_hlist`.  `pprev` is written by `hlist_add_head` and read by no function
of the module; it is left out.

## What is proved

`dev_get_by_name_latest`: after any sequence of insertions of distinct devices into a
fresh table, a search for any string ends, with the device inserted last among those
whose name equals it, or with `NULL` if there is none; and every index that was used is
below 256.
-/
import KernelLab.Lib.CString
import KernelLab.Lib.Hlist
import KernelLab.Lib.Region

namespace KernelLab.DataStruct.NameHash

open KernelLab.Hlist KernelLab.Loop

def IFNAMSIZ : Nat := 16

def NETDEV_HASHBITS : Nat := 8

def NETDEV_HASHENTRIES : Nat := 1 <<< NETDEV_HASHBITS

/-! ## The hash -/

def init_name_hash : UInt64 := 0

/-- `unsigned long` throughout, so everything wraps. -/
def partial_name_hash (c prevhash : UInt64) : UInt64 := (prevhash + (c <<< 4) + (c >>> 4)) * 11

def end_name_hash (hash : UInt64) : UInt64 := hash.toUInt32.toUInt64

/-- The loop of `full_name_hash`; `none` when it reads behind the name. -/
def hashLoop : List UInt8 → Nat → UInt64 → Option UInt64
  | _, 0, hash => some hash
  | [], _ + 1, _ => none
  | c :: name, len + 1, hash => hashLoop name len (partial_name_hash c.toUInt64 hash)

def full_name_hash (name : List UInt8) (len : Nat) : Option UInt32 :=
  (hashLoop name len init_name_hash).map fun hash => (end_name_hash hash).toUInt32

/-- `hash & ((1 << NETDEV_HASHBITS) - 1)` -/
def index (hash : UInt32) : Nat := (hash &&& UInt32.ofNat ((1 <<< NETDEV_HASHBITS) - 1)).toNat

/-- The index of the chain. -/
def dev_name_hash (name : List UInt8) : Option Nat :=
  (strnlen name IFNAMSIZ).bind fun len => (full_name_hash name len).map index

/-! ## The table -/

structure NetDevice where
  name : List UInt8
  net_num : Int
  name_length : name.length = IFNAMSIZ

/-- The heads of the chains, by the addresses of the devices they point to. -/
abbrev Heads := Region (Option Nat) NETDEV_HASHENTRIES

/-- `struct net` and the `name_hlist` fields of the devices. -/
structure Net where
  dev_name_head : Heads
  next : Nat → Option Nat

/-- `hash` is what `kmalloc` returned, with whatever was in it. -/
def netdev_create_hash (hash : Option Heads) : Option Heads :=
  hash.map fun hash =>
    (List.finRange NETDEV_HASHENTRIES).foldl (fun hash i => Function.update hash i none) hash

/-- `hlist_add_head` of the device at `dev` to the chain with index `i`. -/
def hlist_add_head (net : Net) (dev i : Nat) : Option Net :=
  if h : i < NETDEV_HASHENTRIES then
    some { dev_name_head := Function.update net.dev_name_head ⟨i, h⟩ (some dev)
           next := Function.update net.next dev (net.dev_name_head ⟨i, h⟩) }
  else none

section Devices

-- the devices, by their addresses
variable (device : Nat → NetDevice)

/-- The device at `dev`, into the chain of its name. -/
def addDevice (net : Net) (dev : Nat) : Option Net :=
  (dev_name_hash (device dev).name).bind (hlist_add_head net dev)

/-- As `hlist_module_init` enters its devices. -/
def insertAll : Net → List Nat → Option Net
  | net, [] => some net
  | net, dev :: devs => (addDevice device net dev).bind fun net => insertAll net devs

/-- `!strncmp(dev->name, name, IFNAMSIZ)` -/
def matchName (name : List UInt8) (dev : Nat) : Option Bool :=
  (strncmp (device dev).name name IFNAMSIZ).map fun ret => ret = 0

/-- The result of the search, `some none` for `NULL`; no result when an access would
leave the table or a name. -/
def dev_get_by_name (net : Net) (name : List UInt8) (out : Option (Option Nat)) : Prop :=
  match (dev_name_hash name).bind net.dev_name_head.get? with
  | none => out = none
  | some first => Ends (walk net.next (matchName device name)) first out

end Devices

/-! ## What the hash sees of a name -/

/-- The loop, over the bytes it is to see. -/
def hashBytes (vis : List UInt8) (hash : UInt64) : UInt64 :=
  vis.foldl (fun hash c => partial_name_hash c.toUInt64 hash) hash

/-- The index, from the visible part of a name. -/
def indexOf (vis : List UInt8) : Nat :=
  index (end_name_hash (hashBytes vis init_name_hash)).toUInt32

theorem index_lt (hash : UInt32) : index hash < NETDEV_HASHENTRIES := by
  unfold index
  rw [UInt32.toNat_and]
  exact Nat.lt_of_le_of_lt Nat.and_le_right (by decide)

theorem indexOf_lt (vis : List UInt8) : indexOf vis < NETDEV_HASHENTRIES := index_lt _

theorem hashLoop_visible {n : Nat} {name : List UInt8} (hash : UInt64) :
    hashLoop name (visible n name).length hash = some (hashBytes (visible n name) hash) := by
  induction n generalizing name hash with
  | zero => cases name <;> rfl
  | succ n ih =>
      cases name with
      | nil => rfl
      | cons c name =>
          by_cases hc : c = 0
          · simp [visible, hc, hashLoop, hashBytes]
          · simp only [visible, if_neg hc, List.length_cons, hashLoop]
            exact ih _

theorem dev_name_hash_eq {name : List UInt8} (h : Readable IFNAMSIZ name) :
    dev_name_hash name = some (indexOf (visible IFNAMSIZ name)) := by
  rw [dev_name_hash, strnlen_eq h, Option.bind_some, full_name_hash, hashLoop_visible]
  rfl

section Devices

variable (device : Nat → NetDevice)

theorem readable_name (dev : Nat) : Readable IFNAMSIZ (device dev).name :=
  .inl (device dev).name_length.ge

/-- The name of the device equals the string. -/
def Named (name : CString) (dev : Nat) : Bool :=
  visible IFNAMSIZ (device dev).name = visible IFNAMSIZ name.bytes

theorem matchName_eq (name : CString) (dev : Nat) :
    matchName device name.bytes dev = some (Named device name dev) := by
  obtain ⟨ret, hret, hiff⟩ :=
    strncmp_eq_zero_iff (readable_name device dev) (name.readable_bytes IFNAMSIZ)
  simp only [matchName, hret, Option.map_some, Named, hiff]

/-- The chain a device belongs to. -/
def chainOf (dev : Nat) : Nat := indexOf (visible IFNAMSIZ (device dev).name)

/-! ## The chains -/

/-- The chain with index `i` passes the devices that belong to it, the last one first. -/
def Chained (net : Net) (devs : List Nat) : Prop :=
  ∀ i : Fin NETDEV_HASHENTRIES, Chain net.next (net.dev_name_head i)
    (devs.filter fun dev => chainOf device dev = i).reverse

theorem create_hash_eq (hash : Heads) : netdev_create_hash (some hash) = some fun _ => none := by
  have hinit : ∀ (l : List (Fin NETDEV_HASHENTRIES)) (hash : Heads) i, i ∈ l →
      l.foldl (fun hash i => Function.update hash i none) hash i = none := by
    intro l
    induction l using List.reverseRecOn with
    | nil => simp
    | append_singleton l j ih =>
        intro hash i hi
        rw [List.foldl_concat]
        by_cases hij : i = j
        · rw [hij, Function.update_self]
        · rw [Function.update_of_ne hij]
          exact ih hash i (by simpa [hij] using hi)
  rw [netdev_create_hash, Option.map_some]
  congr 1
  funext i
  exact hinit _ hash i (List.mem_finRange i)

theorem chained_empty (next : Nat → Option Nat) : Chained device ⟨fun _ => none, next⟩ [] :=
  fun _ => .nil

theorem addDevice_chained {net : Net} {devs : List Nat} {dev : Nat} (h : Chained device net devs)
    (hd : dev ∉ devs) :
    ∃ net', addDevice device net dev = some net' ∧ Chained device net' (devs ++ [dev]) := by
  have hlt : chainOf device dev < NETDEV_HASHENTRIES := indexOf_lt _
  have hnot : ∀ i : Nat, dev ∉ (devs.filter fun d => chainOf device d = i).reverse := by
    intro i hi
    exact hd (List.mem_of_mem_filter (List.mem_reverse.mp hi))
  refine ⟨⟨Function.update net.dev_name_head ⟨chainOf device dev, hlt⟩ (some dev),
    Function.update net.next dev (net.dev_name_head ⟨chainOf device dev, hlt⟩)⟩, ?_, ?_⟩
  · rw [addDevice, dev_name_hash_eq (readable_name device dev), Option.bind_some, hlist_add_head]
    exact dif_pos hlt
  · intro i
    rw [List.filter_append, List.reverse_append]
    by_cases hi : i = ⟨chainOf device dev, hlt⟩
    · subst hi
      simp only [List.filter_cons, decide_true, if_true, List.filter_nil, List.reverse_singleton,
        List.singleton_append]
      show Chain _ (Function.update net.dev_name_head _ (some dev) _) _
      rw [Function.update_self]
      exact (h _).push (hnot _)
    · have hne : chainOf device dev ≠ i := fun heq => hi (Fin.ext heq.symm)
      simp only [List.filter_cons, hne, decide_false, Bool.false_eq_true, if_false,
        List.filter_nil, List.reverse_nil, List.nil_append]
      show Chain _ (Function.update net.dev_name_head _ (some dev) i) _
      rw [Function.update_of_ne hi]
      exact (h i).update (hnot _) _

theorem insertAll_chained {net : Net} {before devs : List Nat} (h : Chained device net before)
    (hd : (before ++ devs).Nodup) :
    ∃ net', insertAll device net devs = some net' ∧ Chained device net' (before ++ devs) := by
  induction devs generalizing net before with
  | nil => exact ⟨net, rfl, by simpa using h⟩
  | cons dev devs ih =>
      have hdev : dev ∉ before := by
        intro hm
        exact (List.nodup_append.mp hd).2.2 dev hm dev List.mem_cons_self rfl
      obtain ⟨net₁, hins, hch⟩ := addDevice_chained device h hdev
      obtain ⟨net', hall, hch'⟩ := ih hch (by simpa using hd)
      refine ⟨net', ?_, by simpa using hch'⟩
      rw [insertAll, hins, Option.bind_some, hall]

/-! ## The search -/

/-- In its own chain, a name is found as it would be among all devices. -/
theorem find_chain {devs : List Nat} {name : CString} {i : Nat}
    (hi : i = indexOf (visible IFNAMSIZ name.bytes)) :
    (devs.filter fun dev => chainOf device dev = i).reverse.find? (Named device name) =
      devs.reverse.find? (Named device name) := by
  rw [← List.filter_reverse, List.find?_filter]
  congr 1
  funext dev
  by_cases hn : visible IFNAMSIZ (device dev).name = visible IFNAMSIZ name.bytes
  · simp [Named, chainOf, hn, hi]
  · simp [Named, hn]

theorem get_by_name_ends {net : Net} {devs : List Nat} (h : Chained device net devs)
    (name : CString) :
    dev_get_by_name device net name.bytes (some (devs.reverse.find? (Named device name))) := by
  have hlt := indexOf_lt (visible IFNAMSIZ name.bytes)
  have hfirst : (dev_name_hash name.bytes).bind net.dev_name_head.get? =
      some (net.dev_name_head ⟨indexOf (visible IFNAMSIZ name.bytes), hlt⟩) := by
    rw [dev_name_hash_eq (name.readable_bytes IFNAMSIZ), Option.bind_some,
      Region.get?_of_lt _ hlt]
  rw [dev_get_by_name, hfirst, ← find_chain device rfl]
  exact walk_ends (h _) fun dev _ => matchName_eq device name dev

/-- The device inserted last among those whose name equals the string under `strncmp`,
or none. -/
def Latest (devs : List Nat) (name : CString) : Option Nat → Prop
  | none => ∀ dev ∈ devs, strncmp (device dev).name name.bytes IFNAMSIZ ≠ some 0
  | some dev => ∃ before after, devs = before ++ dev :: after ∧
      strncmp (device dev).name name.bytes IFNAMSIZ = some 0 ∧
      ∀ d ∈ after, strncmp (device d).name name.bytes IFNAMSIZ ≠ some 0

theorem named_iff (name : CString) (dev : Nat) :
    Named device name dev = true ↔ strncmp (device dev).name name.bytes IFNAMSIZ = some 0 := by
  have h := matchName_eq device name dev
  unfold matchName at h
  obtain ⟨ret, hret, hnamed⟩ := Option.map_eq_some_iff.mp h
  rw [← hnamed, hret, decide_eq_true_iff, Option.some.injEq]

theorem latest_find (devs : List Nat) (name : CString) :
    Latest device devs name (devs.reverse.find? (Named device name)) := by
  cases h : devs.reverse.find? (Named device name) with
  | none =>
      intro dev hdev hname
      exact List.find?_eq_none.mp h dev (List.mem_reverse.mpr hdev) ((named_iff device name dev).mpr
        hname)
  | some dev =>
      obtain ⟨hdev, before, after, hsplit, hno⟩ := List.find?_eq_some_iff_append.mp h
      refine ⟨after.reverse, before.reverse, ?_, (named_iff device name dev).mp hdev, ?_⟩
      · have := congrArg List.reverse hsplit
        simpa using this
      · intro d hd hname
        have := hno d (List.mem_reverse.mp hd)
        rw [(named_iff device name d).mpr hname] at this
        cases this

theorem dev_get_by_name_latest (hash : Heads) (next : Nat → Option Nat) (devs : List Nat)
    (hd : devs.Nodup) (name : CString) :
    ∃ heads net found, netdev_create_hash (some hash) = some heads ∧
      insertAll device ⟨heads, next⟩ devs = some net ∧
      dev_get_by_name device net name.bytes (some found) ∧ Latest device devs name found ∧
      (∀ dev ∈ devs, ∃ i < NETDEV_HASHENTRIES, dev_name_hash (device dev).name = some i) ∧
      ∃ i < NETDEV_HASHENTRIES, dev_name_hash name.bytes = some i := by
  obtain ⟨net, hall, hch⟩ :=
    insertAll_chained device (chained_empty device next) (by simpa using hd)
  exact ⟨_, net, _, create_hash_eq hash, hall, get_by_name_ends device hch name,
    latest_find device devs name,
    fun dev _ => ⟨_, indexOf_lt _, dev_name_hash_eq (readable_name device dev)⟩,
    ⟨_, indexOf_lt _, dev_name_hash_eq (name.readable_bytes IFNAMSIZ)⟩⟩

end Devices

/-! ## The module's own run -/

/-- `devices[i]` of `hlist_module_init`. -/
def eth (i : Nat) : NetDevice :=
  ⟨[101, 116, 104, 48 + UInt8.ofNat i] ++ List.replicate 12 0, i, rfl⟩

def eth1 : CString := .ofBytes [101, 116, 104, 49, 0]

theorem eth_eq_eth1 : ∀ i ∈ List.range 10,
    (strncmp (eth i).name eth1.bytes IFNAMSIZ = some 0 ↔ i = 1) := by
  decide

theorem dev_get_by_name_eth1 :
    (List.range 10).Nodup ∧ ∃ heads net,
      netdev_create_hash (some fun _ => some 7) = some heads ∧
      insertAll eth ⟨heads, fun _ => none⟩ (List.range 10) = some net ∧
      dev_get_by_name eth net eth1.bytes (some (some 1)) := by
  have hnodup : (List.range 10).Nodup := by decide
  obtain ⟨heads, net, found, hcreate, hall, hget, hlatest, -⟩ :=
    dev_get_by_name_latest eth (fun _ => some 7) (fun _ => none) (List.range 10) hnodup eth1
  refine ⟨hnodup, heads, net, hcreate, hall, ?_⟩
  cases found with
  | none => exact absurd ((eth_eq_eth1 1 (by decide)).mpr rfl) (hlatest 1 (by decide))
  | some dev =>
      obtain ⟨before, after, hsplit, heq, -⟩ := hlatest
      have hmem : dev ∈ List.range 10 := by rw [hsplit]; simp
      obtain rfl := (eth_eq_eth1 dev hmem).mp heq
      exact hget

end KernelLab.DataStruct.NameHash
