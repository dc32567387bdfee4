/-
# `KernelLab.DataStruct.ProductTreeClear` — taking the product tree down

`rbtree_clear` erases and frees every product along the tree's post-order:

    rbtree_postorder_for_each_entry_safe(each_product, tmp_product, ...) {
            rb_erase(&each_product->tnode, &product_tree);
            kfree(each_product);
    }

The successor is fixed before the body runs, so freeing the product is safe; but
`rb_erase` rebalances, and the walk goes on from a node that may have been moved past
others in the meantime.  Those are never visited: with four products added in the
order of their names the tree

        b                 a is erased: d is next, and the rotation
       / \                around c puts b below it, so that d, c
      a   c               are the last two, and b stays behind
           \
            d

keeps `b`, not freed and still linked (`clear_leaves_second`).

## What is proved

For every tree a run of additions and deletions can leave:

    rbtree_clear frees every product once, touches none that was freed, and leaves
    the tree empty
      ⟺  every product off the left spine has two children or none
                                                       (`clears_iff_spineFull`)

It always ends, and never touches freed memory (`clear_ends`); only the emptiness of
the tree depends on its shape.
-/
import KernelLab.DataStruct.ProductTree
import KernelLab.Lib.RbTree.Postorder

namespace KernelLab.DataStruct

open KernelLab.RbTree KernelLab.RbTree.RbNode KernelLab.Run

/-! ## The loop -/

structure ClearState where
  product_tree : RbNode Product
  /-- `NULL` after the last node of the walk -/
  each_product : Option Product
  freed : List Product
  deriving DecidableEq

inductive ClearResult where
  /-- the loop is left, with what is still linked in the tree -/
  | done (product_tree : RbNode Product) (freed : List Product)
  /-- the walk stands at a product that is no longer in the tree -/
  | useAfterFree (freed : List Product)
  deriving DecidableEq

/-- `rb_first_postorder` of the tree. -/
def clearStart (product_tree : RbNode Product) : ClearState :=
  ⟨product_tree, firstPostorder product_tree, []⟩

/-- One iteration: `rb_next_postorder` first, then the body. -/
def clearBody (s : ClearState) : Loop.Step ClearState ClearResult :=
  match s.each_product with
  | none => .exit (.done s.product_tree s.freed)
  | some each_product =>
      match locate (fun p : Product => p.tnode == each_product.tnode) s.product_tree [] with
      | none => .exit (.useAfterFree s.freed)
      | some (f, P) =>
          let tmp_product := nextPostorder P
          .next ⟨(rbtree Product).rb_erase f P, tmp_product, s.freed ++ [each_product]⟩

/-- `rbtree_clear` is left with this result. -/
def rbtree_clear (product_tree : RbNode Product) (r : ClearResult) : Prop :=
  Loop.Ends clearBody (clearStart product_tree) r

/-- Every product is freed once, none is touched afterwards, nothing stays. -/
def Clears (t : RbNode Product) : Prop :=
  ∃ freed, rbtree_clear t (.done .nil freed) ∧ freed.Nodup ∧ ∀ p, p ∈ freed ↔ p ∈ t.inorder

/-- Products named "a" to "d". -/
def prodA : Product := ⟨0x1000, .ofBytes [97, 0], 1⟩

def prodB : Product := ⟨0x2000, .ofBytes [98, 0], 2⟩

def prodC : Product := ⟨0x3000, .ofBytes [99, 0], 3⟩

def prodD : Product := ⟨0x4000, .ofBytes [100, 0], 4⟩

/-- The tree drawn above. -/
def fourTree : RbNode Product :=
  .node .black (.node .black .nil prodA .nil) prodB
    (.node .black .nil prodC (.node .red .nil prodD .nil))

theorem clear_leaves_second :
    exec (step (rbtree Product)) .nil [.add prodA, .add prodB, .add prodC, .add prodD] =
        some fourTree ∧
      rbtree_clear fourTree (.done (.node .black .nil prodB .nil) [prodA, prodD, prodC]) ∧
      ¬ Clears fourTree := by
  have h : rbtree_clear fourTree (.done (.node .black .nil prodB .nil) [prodA, prodD, prodC]) :=
    ⟨4, by decide⟩
  refine ⟨by decide, h, ?_⟩
  rintro ⟨freed, h', -, -⟩
  nomatch h.unique h'

/-! ## Balance along a run -/

theorem redBlack_step {m : CString → Option Product} {t t' : RbNode Product} {e : Event} {n : Nat}
    (hi : Inv m t) (hb : RedBlack t .black n) (h : step (rbtree Product) t e = some t') :
    ∃ n', RedBlack t' .black n' := by
  cases e with
  | add p =>
      simp only [step] at h
      split at h
      · rename_i hp
        obtain ⟨P, rfl, -, hadd⟩ := add_place (rbtree Product) hi.ordered hp
        rw [hadd _ (Nat.lt_succ_self _)] at h
        cases h
        obtain ⟨c, m, hnil, hP⟩ := Hole.of_plug hb
        cases hnil
        exact insertColor_redBlack (.red .nil .nil) hP
      · cases h
  | del name =>
      cases h
      cases hm : m name with
      | none =>
          rw [del_missing _ (hi.absent hm)]
          exact ⟨n, hb⟩
      | some p =>
          obtain ⟨rfl, hp⟩ := hi.present hm
          obtain ⟨c, l, r, P, rfl, he⟩ := erase_place (rbtree Product) hi.apart hp
          rw [del_found _ hi.ordered hp, he]
          exact erase_redBlack hb
  | search name =>
      cases h
      exact ⟨n, hb⟩

theorem redBlack_of_exec {es : List Event} {t : RbNode Product}
    (h : exec (step (rbtree Product)) .nil es = some t) : ∃ n, RedBlack t .black n := by
  suffices hboth : Inv (stock es) t ∧ ∃ n, RedBlack t .black n from hboth.2
  refine invariant (step (rbtree Product))
    (I := fun es t => Inv (stock es) t ∧ ∃ n, RedBlack t .black n) ⟨Inv.init, 0, .nil⟩ ?_ es t h
  rintro es t e t' ⟨hi, n, hb⟩ hstep
  exact ⟨inv_step hi hstep, redBlack_step hi hb hstep⟩

/-! ## The walk -/

/-- What holds at the head of the loop, for the tree `t₀` it started with. -/
structure Walk (t₀ : RbNode Product) (s : ClearState) : Prop where
  redBlack : ∃ n, RedBlack s.product_tree .black n
  apart : Apart s.product_tree
  linked : ∀ p, s.each_product = some p → p ∈ s.product_tree.inorder
  kept : (s.freed ++ s.product_tree.inorder).Perm t₀.inorder
  track : OnTrack s.product_tree s.each_product ↔ SpineFull t₀

theorem walk_start {t : RbNode Product} {n : Nat} (hb : RedBlack t .black n) (ha : Apart t) :
    Walk t (clearStart t) where
  redBlack := ⟨n, hb⟩
  apart := ha
  linked _ h := firstPostorder_mem h
  kept := .refl _
  track := and_iff_right rfl

/-- The walk never stands at a product that was freed. -/
theorem clearBody_linked {t₀ t : RbNode Product} {p : Product} {freed : List Product}
    (hw : Walk t₀ ⟨t, some p, freed⟩) :
    ∃ c l r P, plug (.node c l p r) P = t ∧
      clearBody ⟨t, some p, freed⟩ =
        .next ⟨erase (.node c l p r) P, nextPostorder P, freed ++ [p]⟩ := by
  obtain ⟨c, l, r, P, hplug, h⟩ := locate_product hw.apart (hw.linked p rfl)
  refine ⟨c, l, r, P, hplug, ?_⟩
  simp only [clearBody, h]
  rfl

/-- One iteration goes on to a product that is linked, and the walk is on track after it
exactly when it was before. -/
theorem walk_next {t₀ : RbNode Product} {s s' : ClearState} (hw : Walk t₀ s)
    (h : clearBody s = .next s') :
    Walk t₀ s' ∧ s'.product_tree.size < s.product_tree.size := by
  obtain ⟨t, pos, freed⟩ := s
  cases pos with
  | none => cases h
  | some p =>
      obtain ⟨c, l, r, P, rfl, hbody⟩ := clearBody_linked hw
      rw [hbody] at h
      cases h
      obtain ⟨n, hb⟩ := hw.redBlack
      have hin : (plug (.node c l p r) P).inorder =
          (before P ++ l.inorder) ++ p :: (r.inorder ++ after P) := by
        simp [inorder_plug]
      have hin' : (erase (.node c l p r) P).inorder =
          (before P ++ l.inorder) ++ (r.inorder ++ after P) := by
        simp [inorder_erase]
      have hperm : (p :: (erase (.node c l p r) P).inorder).Perm
          (plug (.node c l p r) P).inorder := by
        rw [hin, hin']
        exact List.perm_middle.symm
      refine ⟨⟨erase_redBlack hb, ?_, ?_, ?_, ?_⟩, ?_⟩
      · have hmap := (hperm.map Product.tnode).nodup_iff.mpr hw.apart
        exact (List.nodup_cons.mp hmap).2
      · intro q hq
        have hmem := nextPostorder_mem hq
        rw [hin']
        simp only [List.mem_append] at hmem ⊢
        tauto
      · rw [List.append_assoc, List.singleton_append]
        exact (hperm.append_left freed).trans hw.kept
      · have hnodup : (plug (.node c l p r) P).inorder.Nodup := List.Nodup.of_map _ hw.apart
        exact (postorder_step hb hnodup).symm.trans hw.track
      · have hlen := hperm.length_eq
        simp only [List.length_cons, length_inorder] at hlen
        simp only
        omega

theorem walk_exit {t₀ : RbNode Product} {s : ClearState} {r : ClearResult} (hw : Walk t₀ s)
    (h : clearBody s = .exit r) :
    ∃ t freed, r = .done t freed ∧ (freed ++ t.inorder).Perm t₀.inorder ∧
      (t = .nil ↔ SpineFull t₀) := by
  obtain ⟨t, pos, freed⟩ := s
  cases pos with
  | none =>
      cases h
      exact ⟨t, freed, rfl, hw.kept, onTrack_none.symm.trans hw.track⟩
  | some p =>
      obtain ⟨c, l, r', P, -, hbody⟩ := clearBody_linked hw
      rw [hbody] at h
      cases h

/-- On every tree of a run `rbtree_clear` ends without touching freed memory; what it
did not free is still linked, and that is nothing exactly when the tree is full off its
left spine. -/
theorem clear_ends {es : List Event} {t : RbNode Product}
    (h : exec (step (rbtree Product)) .nil es = some t) :
    ∃ t' freed, rbtree_clear t (.done t' freed) ∧ (freed ++ t'.inorder).Perm t.inorder ∧
      (t' = .nil ↔ SpineFull t) := by
  obtain ⟨n, hb⟩ := redBlack_of_exec h
  obtain ⟨r, he, t', freed, rfl, hperm, hnil⟩ := Loop.ends_of_measure (Walk t)
    (fun s => s.product_tree.size)
    (fun r => ∃ t' freed, r = .done t' freed ∧ (freed ++ t'.inorder).Perm t.inorder ∧
      (t' = .nil ↔ SpineFull t))
    (fun _ _ hw hnext => walk_next hw hnext) (fun _ _ hw hexit => walk_exit hw hexit)
    (clearStart t) (walk_start hb (inv_of_exec h).apart)
  exact ⟨t', freed, he, hperm, hnil⟩

/-- The tree is taken down completely exactly when every product off its left spine has
two children or none. -/
theorem clears_iff_spineFull {es : List Event} {t : RbNode Product}
    (h : exec (step (rbtree Product)) .nil es = some t) : Clears t ↔ SpineFull t := by
  obtain ⟨t', freed, he, hperm, hnil⟩ := clear_ends h
  rw [← hnil]
  constructor
  · rintro ⟨freed', he', -, -⟩
    cases he.unique he'
    rfl
  · rintro rfl
    rw [inorder_nil, List.append_nil] at hperm
    refine ⟨freed, he, hperm.nodup_iff.mpr ?_, fun p => hperm.mem_iff⟩
    exact List.Nodup.of_map _ (inv_of_exec h).apart

/-- With the first three alone nothing stays. -/
def threeTree : RbNode Product :=
  .node .black (.node .red .nil prodA .nil) prodB (.node .red .nil prodC .nil)

theorem clears_three :
    exec (step (rbtree Product)) .nil [.add prodA, .add prodB, .add prodC] = some threeTree ∧
      Clears threeTree := by
  have h : exec (step (rbtree Product)) .nil [.add prodA, .add prodB, .add prodC] =
      some threeTree := by decide
  exact ⟨h, (clears_iff_spineFull h).mpr (by decide)⟩

end KernelLab.DataStruct
