/-
# `KernelLab.DataStruct.ProductTree` — the product tree of `rbtree.c`

Products hang in one red-black tree by their embedded `tnode`, ordered by name.  The
module does its own descents, one to search and one to find the place of a new
product, and leaves linking and taking out to `lib/rbtree`.

    rbtree_search_product_by_name   left if strcmp < 0, right if > 0, else found
    rb_tree_add                     the same descent; an equal name does not move it
    rbtree_del                      search, then rb_erase

`RbLib` is what the module relies on of the library: both operations keep the in-order
sequence, but for the node put in or taken out.  `rbtree` is the kernel's own.

## What is proved

For every such library, after every sequence of additions (of a product not in the
tree, under a name not in it), deletions and searches from the empty tree:

    the tree is a map from names to products, the one that `stock` keeps of the
    same sequence                                     (`product_tree_is_map`)

where being a map is `MapOf`: the names increase in order, a search answers with the
product in stock or with -1, a deletion takes exactly that product out, and an
addition ends and puts its product in.

A name that is already in the tree is another matter: the descent comes to the product
of that name and stays there, so the addition ends if and only if the name is new
                                                      (`rb_tree_add_ends_iff`).
-/
import KernelLab.Lib.CString
import KernelLab.Lib.Loop
import KernelLab.Lib.Run
import KernelLab.Lib.RbTree.Ordered
import KernelLab.Lib.RbTree.Rebalance

namespace KernelLab.DataStruct

open KernelLab.RbTree KernelLab.Run

def EINVAL : Int := 22

/-- `struct product_t`; `tnode` is the address of its embedded node. -/
structure Product where
  tnode : Nat
  name : CString
  price : UInt32
  deriving DecidableEq

/-- `lib/rbtree`, as far as the module relies on it. -/
structure RbLib (α : Type*) where
  /-- the tree, once the node just linked at the end of the path is rebalanced -/
  rb_insert_color : RbNode α → List (Frame α) → RbNode α
  /-- the tree without the root of the subtree at the path -/
  rb_erase : RbNode α → List (Frame α) → RbNode α
  inorder_insert : ∀ a P,
    (rb_insert_color (.node .red .nil a .nil) P).inorder = before P ++ a :: after P
  inorder_erase : ∀ c l a r P,
    (rb_erase (.node c l a r) P).inorder = before P ++ (l.inorder ++ r.inorder) ++ after P

/-- The kernel's own. -/
def rbtree (α : Type*) : RbLib α where
  rb_insert_color := insertColor
  rb_erase := erase
  inorder_insert a P := by simp [inorder_insertColor, inorder_plug]
  inorder_erase := inorder_erase

/-! ## The operations -/

/-- The return value, and what is written to `*product_data_buf`, if anything is. -/
def rbtree_search_product_by_name (product_name : CString) : RbNode Product → Int × Option Product
  | .nil => (-1, none)
  | .node _ l each_product r =>
      let ret := strcmp product_name each_product.name
      if ret < 0 then rbtree_search_product_by_name product_name l
      else if ret > 0 then rbtree_search_product_by_name product_name r
      else (0, some each_product)

/-- One iteration of the descent in `rb_tree_add`: what hangs at `*each_tnode`, and the
path that leads there.  An equal name is reported, and `each_tnode` stays. -/
def descend (product_data : Product) :
    RbNode Product × List (Frame Product) → Loop.Step (RbNode Product × List (Frame Product))
      (List (Frame Product))
  | (.nil, P) => .exit P
  | (.node c l each_product r, P) =>
      let ret := strcmp product_data.name each_product.name
      if ret < 0 then .next (l, ⟨.left, c, each_product, r⟩ :: P)
      else if ret > 0 then .next (r, ⟨.right, c, each_product, l⟩ :: P)
      else .next (.node c l each_product r, P)

/-- `rb_link_node` hangs the node in as a red leaf. -/
def rb_link_node (product_data : Product) : RbNode Product := .node .red .nil product_data .nil

section Operations

variable (lib : RbLib Product)

/-- The return value and the tree; `none` while the descent has not ended within `fuel`
iterations. -/
def rb_tree_add (fuel : Nat) (product_tree : RbNode Product) :
    Option Product → Option (Int × RbNode Product)
  | none => some (-EINVAL, product_tree)
  | some product_data =>
      (Loop.run (descend product_data) fuel (product_tree, [])).map fun P =>
        (0, lib.rb_insert_color (rb_link_node product_data) P)

/-- `rb_erase`, called with the address of a node. -/
def eraseNode (tnode : Nat) (product_tree : RbNode Product) : RbNode Product :=
  match locate (fun p : Product => p.tnode == tnode) product_tree [] with
  | some (f, P) => lib.rb_erase f P
  | none => product_tree

def rbtree_del (product_tree : RbNode Product) (name : CString) : Int × RbNode Product :=
  match rbtree_search_product_by_name name product_tree with
  | (ret, tmp) =>
      if ret < 0 then (-1, product_tree)
      else
        match tmp with
        | some product => (0, eraseNode lib product.tnode product_tree)
        | none => (0, product_tree)

end Operations

/-! ## Runs -/

inductive Event where
  | add (product_data : Product)
  | del (name : CString)
  | search (name : CString)

/-- Neither the product nor its name is in the tree. -/
def Fresh (t : RbNode Product) (p : Product) : Prop :=
  ∀ q ∈ t.inorder, q.tnode ≠ p.tnode ∧ q.name ≠ p.name

instance decFresh (t : RbNode Product) (p : Product) : Decidable (Fresh t p) :=
  inferInstanceAs (Decidable (∀ q ∈ t.inorder, q.tnode ≠ p.tnode ∧ q.name ≠ p.name))

def step (lib : RbLib Product) (t : RbNode Product) : Event → Option (RbNode Product)
  | .add p => if Fresh t p then (rb_tree_add lib (t.size + 1) t (some p)).map Prod.snd else none
  | .del name => some (rbtree_del lib t name).2
  | .search _ => some t

/-- What is in stock under each name, kept apart from any tree. -/
def stockStep (m : CString → Option Product) : Event → CString → Option Product
  | .add p => Function.update m p.name (some p)
  | .del name => Function.update m name none
  | .search _ => m

/-- Added, and not deleted since. -/
def stock (es : List Event) : CString → Option Product := es.foldl stockStep fun _ => none

/-- The tree `t` is the map `m`. -/
structure MapOf (lib : RbLib Product) (m : CString → Option Product) (t : RbNode Product) :
    Prop where
  increasing : t.inorder.Pairwise fun a b => strcmp a.name b.name < 0
  holds : ∀ p, p ∈ t.inorder ↔ m p.name = some p
  search : ∀ name, rbtree_search_product_by_name name t =
    match m name with
    | some p => (0, some p)
    | none => (-1, none)
  del_absent : ∀ name, m name = none → rbtree_del lib t name = (-1, t)
  del_present : ∀ name p, m name = some p → ∃ pre post t', t.inorder = pre ++ p :: post ∧
    rbtree_del lib t name = (0, t') ∧ t'.inorder = pre ++ post
  add_fresh : ∀ p, Fresh t p → ∃ pre post t', t.inorder = pre ++ post ∧
    t'.inorder = pre ++ p :: post ∧
    ∀ fuel, t.size < fuel → rb_tree_add lib fuel t (some p) = some (0, t')

/-! ## The descents -/

/-- The key the tree is ordered by. -/
def nameKey (p : Product) : List Nat := p.name.values

theorem nameKey_eq {p q : Product} : nameKey p = nameKey q ↔ p.name = q.name :=
  CString.values_injective.eq_iff

theorem search_found {t : RbNode Product} (ht : Ordered nameKey t) {p : Product}
    (hp : p ∈ t.inorder) : rbtree_search_product_by_name p.name t = (0, some p) := by
  induction t with
  | nil => cases hp
  | node c l q r ihl ihr =>
      obtain ⟨hl, hr, -, -⟩ := Ordered.node_iff.mp ht
      rw [rbtree_search_product_by_name]
      rcases strcmp_cases p.name q.name with ⟨h, hlt⟩ | ⟨h, heq⟩ | ⟨h, hlt⟩
      · rw [if_pos h]
        exact ihl hl (ht.mem_left hp hlt)
      · obtain rfl := ht.eq_root hp (nameKey_eq.mpr heq)
        simp [h]
      · rw [if_neg (by omega), if_pos h]
        exact ihr hr (ht.mem_right hp hlt)

theorem search_absent {t : RbNode Product} {name : CString}
    (h : ∀ q ∈ t.inorder, q.name ≠ name) :
    rbtree_search_product_by_name name t = (-1, none) := by
  induction t with
  | nil => rfl
  | node c l q r ihl ihr =>
      simp only [RbNode.inorder_node, List.mem_append, List.mem_cons] at h
      rw [rbtree_search_product_by_name]
      rcases strcmp_cases name q.name with ⟨hs, -⟩ | ⟨-, rfl⟩ | ⟨hs, -⟩
      · rw [if_pos hs]
        exact ihl fun p hp => h p (.inl hp)
      · exact absurd rfl (h q (.inr (.inl rfl)))
      · rw [if_neg (by omega), if_pos hs]
        exact ihr fun p hp => h p (.inr (.inr hp))

/-- Without the name in the tree the descent ends, at the place where the name fits. -/
theorem descend_ends {p : Product} {t : RbNode Product} {P : List (Frame Product)}
    (hfresh : ∀ q ∈ t.inorder, q.name ≠ p.name) (ht : Ordered nameKey t)
    (hP : Fits nameKey (nameKey p) P) :
    ∃ P', Loop.run (descend p) (t.size + 1) (t, P) = some P' ∧ plug .nil P' = plug t P ∧
      Fits nameKey (nameKey p) P' := by
  induction t generalizing P with
  | nil => exact ⟨P, rfl, rfl, hP⟩
  | node c l q r ihl ihr =>
      obtain ⟨hl, hr, -, -⟩ := Ordered.node_iff.mp ht
      simp only [RbNode.inorder_node, List.mem_append, List.mem_cons] at hfresh
      rcases strcmp_cases p.name q.name with ⟨h, hlt⟩ | ⟨-, heq⟩ | ⟨h, hlt⟩
      · obtain ⟨P', hrun, hplug, hfits⟩ := ihl (fun x hx => hfresh x (.inl hx)) hl (hP.left ht hlt)
        refine ⟨P', ?_, hplug, hfits⟩
        simp only [Loop.run, descend, if_pos h]
        exact Loop.run_mono hrun (by simp only [RbNode.size]; omega)
      · exact absurd heq.symm (hfresh q (.inr (.inl rfl)))
      · obtain ⟨P', hrun, hplug, hfits⟩ :=
          ihr (fun x hx => hfresh x (.inr (.inr hx))) hr (hP.right ht hlt)
        refine ⟨P', ?_, hplug, hfits⟩
        simp only [Loop.run, descend, if_neg (show ¬ strcmp p.name q.name < 0 by omega), if_pos h]
        exact Loop.run_mono hrun (by simp only [RbNode.size]; omega)

/-- With the name in the tree the descent never ends: it narrows down to the product of
that name, and from there every iteration leads back to where it started. -/
theorem descend_spins {p q : Product} {t : RbNode Product} {P : List (Frame Product)}
    (ht : Ordered nameKey t) (hq : q ∈ t.inorder) (hname : q.name = p.name) (fuel : Nat) :
    Loop.run (descend p) fuel (t, P) = none := by
  have hkey : nameKey q = p.name.values := by rw [nameKey, hname]
  induction fuel generalizing t P with
  | zero => rfl
  | succ fuel ih =>
      cases t with
      | nil => cases hq
      | node c l x r =>
          obtain ⟨hl, hr, -, -⟩ := Ordered.node_iff.mp ht
          rcases strcmp_cases p.name x.name with ⟨h, hlt⟩ | ⟨h, -⟩ | ⟨h, hlt⟩
          · simp only [Loop.run, descend, if_pos h]
            exact ih hl (ht.mem_left hq (hkey ▸ hlt))
          · simp only [Loop.run, descend, h, lt_irrefl, if_false]
            exact ih ht hq
          · simp only [Loop.run, descend, if_neg (show ¬ strcmp p.name x.name < 0 by omega),
              if_pos h]
            exact ih hr (ht.mem_right hq (hkey ▸ hlt))

/-! ## What each operation does to the tree -/

/-- No two products of the tree are at one address. -/
def Apart (t : RbNode Product) : Prop := (t.inorder.map Product.tnode).Nodup

/-- A product of the tree is found at its address. -/
theorem locate_product {t : RbNode Product} {p : Product} (ht : Apart t) (hp : p ∈ t.inorder) :
    ∃ c l r P, plug (.node c l p r) P = t ∧
      locate (fun q : Product => q.tnode == p.tnode) t [] = some (.node c l p r, P) := by
  cases h : locate (fun q : Product => q.tnode == p.tnode) t [] with
  | none => simpa using locate_eq_none.mp h p hp
  | some place =>
      obtain ⟨f, P⟩ := place
      obtain ⟨hplug, c, l, q, r, rfl, hq⟩ := locate_some h
      have hmem : q ∈ t.inorder := by
        rw [← plug_nil t, ← hplug, inorder_plug]
        simp
      obtain rfl := List.inj_on_of_nodup_map ht hmem hp (by simpa using hq)
      exact ⟨c, l, r, P, hplug, rfl⟩

section Operations

variable (lib : RbLib Product)

theorem add_place {t : RbNode Product} {p : Product} (ht : Ordered nameKey t) (hp : Fresh t p) :
    ∃ P, plug .nil P = t ∧ Fits nameKey (nameKey p) P ∧
      ∀ fuel, t.size < fuel → rb_tree_add lib fuel t (some p) =
        some (0, lib.rb_insert_color (rb_link_node p) P) := by
  obtain ⟨P, hrun, hplug, hfits⟩ := descend_ends (fun q hq => (hp q hq).2) ht .nil
  refine ⟨P, hplug, hfits, fun fuel hfuel => ?_⟩
  simp only [rb_tree_add, Loop.run_mono hrun hfuel, Option.map_some]

/-- Adding `p` comes to an end, and changes nothing if its name is in the tree. -/
def AddEnds (t : RbNode Product) (p : Product) : Prop :=
  ∃ fuel ret t', rb_tree_add lib fuel t (some p) = some (ret, t') ∧
    ((∃ q ∈ t.inorder, q.name = p.name) → t' = t)

theorem add_spins {t : RbNode Product} {p q : Product} (ht : Ordered nameKey t)
    (hq : q ∈ t.inorder) (hname : q.name = p.name) (fuel : Nat) :
    rb_tree_add lib fuel t (some p) = none := by
  rw [rb_tree_add, descend_spins ht hq hname, Option.map_none]

theorem rb_tree_add_ends_iff {t : RbNode Product} (ht : Ordered nameKey t) (p : Product) :
    AddEnds lib t p ↔ ∀ q ∈ t.inorder, q.name ≠ p.name := by
  constructor
  · rintro ⟨fuel, ret, t', hadd, -⟩ q hq hname
    rw [add_spins lib ht hq hname] at hadd
    cases hadd
  · intro hnew
    obtain ⟨P, hrun, -, -⟩ := descend_ends hnew ht .nil
    refine ⟨t.size + 1, 0, lib.rb_insert_color (rb_link_node p) P, ?_, ?_⟩
    · rw [rb_tree_add, hrun, Option.map_some]
    · rintro ⟨q, hq, hname⟩
      exact absurd hname (hnew q hq)

theorem erase_place {t : RbNode Product} {p : Product} (ht : Apart t) (hp : p ∈ t.inorder) :
    ∃ c l r P, plug (.node c l p r) P = t ∧
      eraseNode lib p.tnode t = lib.rb_erase (.node c l p r) P := by
  obtain ⟨c, l, r, P, hplug, h⟩ := locate_product ht hp
  exact ⟨c, l, r, P, hplug, by rw [eraseNode, h]⟩

/-- `eraseNode` takes out one product, and nothing moves. -/
theorem inorder_eraseNode {t : RbNode Product} {p : Product} (ht : Apart t) (hp : p ∈ t.inorder) :
    ∃ pre post, t.inorder = pre ++ p :: post ∧
      (eraseNode lib p.tnode t).inorder = pre ++ post := by
  obtain ⟨c, l, r, P, rfl, he⟩ := erase_place lib ht hp
  refine ⟨before P ++ l.inorder, r.inorder ++ after P, ?_, ?_⟩
  · simp [inorder_plug]
  · simp [he, lib.inorder_erase]

theorem del_found {t : RbNode Product} (ht : Ordered nameKey t) {p : Product} (hp : p ∈ t.inorder) :
    rbtree_del lib t p.name = (0, eraseNode lib p.tnode t) := by
  simp [rbtree_del, search_found ht hp]

theorem del_missing {t : RbNode Product} {name : CString} (h : ∀ q ∈ t.inorder, q.name ≠ name) :
    rbtree_del lib t name = (-1, t) := by
  simp [rbtree_del, search_absent h]

end Operations

/-! ## The invariant of a run -/

/-- The map files every product under its own name. -/
def Named (m : CString → Option Product) : Prop := ∀ name p, m name = some p → p.name = name

theorem Named.update {m : CString → Option Product} (hm : Named m) {name : CString}
    {v : Option Product} (hv : ∀ p, v = some p → p.name = name) :
    Named (Function.update m name v) := by
  intro name' p h
  by_cases hname : name' = name
  · subst hname
    rw [Function.update_self] at h
    exact hv p h
  · rw [Function.update_of_ne hname] at h
    exact hm name' p h

structure Inv (m : CString → Option Product) (t : RbNode Product) : Prop where
  ordered : Ordered nameKey t
  apart : Apart t
  holds : ∀ p, p ∈ t.inorder ↔ m p.name = some p
  named : Named m

theorem Inv.init : Inv (stock []) .nil where
  ordered := .nil
  apart := .nil
  holds p := by simp [stock]
  named name p h := by cases h

namespace Inv

variable (lib : RbLib Product) {m : CString → Option Product} {t : RbNode Product}

theorem add {p : Product} (hi : Inv m t) (hp : Fresh t p) :
    ∃ pre post t', t.inorder = pre ++ post ∧ t'.inorder = pre ++ p :: post ∧
      (∀ fuel, t.size < fuel → rb_tree_add lib fuel t (some p) = some (0, t')) ∧
      Inv (Function.update m p.name (some p)) t' := by
  obtain ⟨P, rfl, hfits, hadd⟩ := add_place lib hi.ordered hp
  have hin : (plug .nil P).inorder = before P ++ after P := by simp [inorder_plug]
  have hin' : (lib.rb_insert_color (rb_link_node p) P).inorder = before P ++ p :: after P :=
    lib.inorder_insert p P
  refine ⟨before P, after P, _, hin, hin', hadd, ?_, ?_, ?_, ?_⟩
  · unfold Ordered
    rw [hin']
    exact hfits.pairwise_insert hi.ordered
  · have hperm : (before P ++ p :: after P).Perm (p :: (plug .nil P).inorder) := by
      rw [hin]
      exact List.perm_middle
    unfold Apart
    rw [hin', (hperm.map Product.tnode).nodup_iff, List.map_cons, List.nodup_cons]
    refine ⟨?_, hi.apart⟩
    intro hmem
    obtain ⟨q, hq, h⟩ := List.mem_map.mp hmem
    exact (hp q hq).1 h
  · intro q
    have hmem : q ∈ before P ++ p :: after P ↔ q = p ∨ q ∈ (plug .nil P).inorder := by
      rw [hin]
      simp only [List.mem_append, List.mem_cons]
      tauto
    rw [hin', hmem, hi.holds q]
    by_cases hname : q.name = p.name
    · rw [hname, Function.update_self]
      constructor
      · rintro (rfl | h)
        · rfl
        · exact absurd hname (hp q ((hi.holds q).mpr (hname ▸ h))).2
      · intro h
        exact .inl (Option.some.inj h).symm
    · rw [Function.update_of_ne hname]
      refine or_iff_right ?_
      rintro rfl
      exact hname rfl
  · refine hi.named.update ?_
    rintro q ⟨rfl⟩
    rfl

theorem absent {name : CString} (hi : Inv m t) (h : m name = none) :
    ∀ q ∈ t.inorder, q.name ≠ name := by
  rintro q hq rfl
  rw [(hi.holds q).mp hq] at h
  cases h

theorem present {name : CString} {p : Product} (hi : Inv m t) (h : m name = some p) :
    p.name = name ∧ p ∈ t.inorder := by
  obtain rfl := hi.named name p h
  exact ⟨rfl, (hi.holds p).mpr h⟩

theorem del {p : Product} (hi : Inv m t) (hp : p ∈ t.inorder) :
    ∃ pre post t', t.inorder = pre ++ p :: post ∧ rbtree_del lib t p.name = (0, t') ∧
      t'.inorder = pre ++ post ∧ Inv (Function.update m p.name none) t' := by
  obtain ⟨pre, post, hin, hin'⟩ := inorder_eraseNode lib hi.apart hp
  have hsub : (eraseNode lib p.tnode t).inorder.Sublist t.inorder := by
    rw [hin, hin']
    exact .append_left (List.sublist_cons_self p post) pre
  refine ⟨pre, post, _, hin, del_found lib hi.ordered hp, hin', ?_, ?_, ?_, ?_⟩
  · exact hi.ordered.sublist hsub
  · exact hi.apart.sublist (hsub.map _)
  · intro q
    have hnodup : t.inorder.Nodup := List.Nodup.of_map _ hi.apart
    have hmem : q ∈ pre ++ post ↔ q ≠ p ∧ q ∈ t.inorder := by
      rw [hin] at hnodup ⊢
      have hp' := List.nodup_middle.mp hnodup
      rw [List.nodup_cons] at hp'
      simp only [List.mem_append, List.mem_cons] at hp' ⊢
      constructor
      · intro h
        refine ⟨?_, by tauto⟩
        rintro rfl
        exact hp'.1 h
      · tauto
    rw [hin', hmem, hi.holds q]
    by_cases hname : q.name = p.name
    · rw [hname, Function.update_self]
      simp only [reduceCtorEq, iff_false, not_and]
      intro hne h
      rw [(hi.holds p).mp hp] at h
      exact hne (Option.some.inj h).symm
    · rw [Function.update_of_ne hname]
      refine and_iff_right ?_
      rintro rfl
      exact hname rfl
  · refine hi.named.update ?_
    intro q h
    cases h

end Inv

theorem stock_concat (es : List Event) (e : Event) :
    stock (es ++ [e]) = stockStep (stock es) e := by
  simp [stock]

theorem inv_step {lib : RbLib Product} {es : List Event} {t t' : RbNode Product} {e : Event}
    (hi : Inv (stock es) t) (h : step lib t e = some t') : Inv (stock (es ++ [e])) t' := by
  rw [stock_concat]
  cases e with
  | add p =>
      simp only [step] at h
      split at h
      · rename_i hp
        obtain ⟨pre, post, t₁, -, -, hadd, hi'⟩ := hi.add lib hp
        rw [hadd _ (Nat.lt_succ_self _)] at h
        cases h
        exact hi'
      · cases h
  | del name =>
      cases h
      cases hm : stock es name with
      | none =>
          rw [del_missing lib (hi.absent hm), stockStep, ← hm, Function.update_eq_self]
          exact hi
      | some p =>
          obtain ⟨rfl, hp⟩ := hi.present hm
          obtain ⟨pre, post, t₁, -, hdel, -, hi'⟩ := hi.del lib hp
          rw [hdel]
          exact hi'
  | search name =>
      cases h
      exact hi

theorem inv_of_exec {lib : RbLib Product} {es : List Event} {t : RbNode Product}
    (h : exec (step lib) .nil es = some t) : Inv (stock es) t :=
  invariant (step lib) (I := fun es t => Inv (stock es) t) Inv.init
    (fun _ _ _ _ hi hstep => inv_step hi hstep) es t h

/-- The product tree is a map from names to products. -/
theorem product_tree_is_map (lib : RbLib Product) {es : List Event} {t : RbNode Product}
    (h : exec (step lib) .nil es = some t) : MapOf lib (stock es) t := by
  have hi := inv_of_exec h
  refine ⟨?_, hi.holds, ?_, ?_, ?_, ?_⟩
  · exact hi.ordered.imp fun hlt => strcmp_neg.mpr hlt
  · intro name
    cases hm : stock es name with
    | none => exact search_absent (hi.absent hm)
    | some p =>
        obtain ⟨rfl, hp⟩ := hi.present hm
        exact search_found hi.ordered hp
  · intro name hm
    exact del_missing lib (hi.absent hm)
  · intro name p hm
    obtain ⟨rfl, hp⟩ := hi.present hm
    obtain ⟨pre, post, t', hin, hdel, hin', -⟩ := hi.del lib hp
    exact ⟨pre, post, t', hin, hdel, hin'⟩
  · intro p hp
    obtain ⟨pre, post, t', hin, hin', hadd, -⟩ := hi.add lib hp
    exact ⟨pre, post, t', hin, hin', hadd⟩

/-! ## The module's own run -/

def p1 : Product := ⟨0x1000, .ofBytes [106, 101, 102, 102, 0], 23⟩

def p2 : Product := ⟨0x2000, .ofBytes [111, 110, 101, 0], 24⟩

/-- As `rbtree_init` calls the operations, once both products are allocated. -/
def rbtree_init : List Event := [.add p1, .add p2, .del p2.name, .search p2.name]

/-- A second product of `p1`'s name. -/
def p1Again : Product := ⟨0x3000, p1.name, 25⟩

theorem ordered_p1 : Ordered nameKey (.node .black .nil p1 .nil) := List.pairwise_singleton _ _

theorem rb_tree_add_ends_second :
    AddEnds (rbtree Product) (.node .black .nil p1 .nil) p2 :=
  (rb_tree_add_ends_iff _ ordered_p1 p2).mpr (by decide)

theorem rb_tree_add_again_spins :
    (∀ q ∈ (RbNode.node .black .nil p1 .nil).inorder, q.tnode ≠ p1Again.tnode) ∧
      ¬ AddEnds (rbtree Product) (.node .black .nil p1 .nil) p1Again := by
  refine ⟨by decide, ?_⟩
  rintro ⟨fuel, ret, t', hadd, -⟩
  have hmem : p1 ∈ (RbNode.node .black .nil p1 .nil).inorder := List.mem_singleton.mpr rfl
  have hspin := add_spins (rbtree Product) (p := p1Again) ordered_p1 hmem rfl fuel
  rw [hspin] at hadd
  cases hadd

theorem product_tree_is_map_init :
    ∃ t, exec (step (rbtree Product)) .nil rbtree_init = some t ∧
      MapOf (rbtree Product) (stock rbtree_init) t :=
  ⟨.node .black .nil p1 .nil, by decide, product_tree_is_map _ (by decide)⟩

end KernelLab.DataStruct
