/-
# `KernelLab.Lib.RbTree.Postorder` — taking a tree down along its post-order

`rb_first_postorder` and `rb_next_postorder` walk a tree from its leaves, each node
after its children.  The successor of a node is read off the tree as it is *before*
the node goes; when the node is then erased with rebalancing, the walk goes on in a
tree that may have been rotated in the meantime.

`SpineFull` is the shape that survives this: every node off the left spine has two
children or none.

## What is proved

One step of the walk, in a balanced tree without repetitions, from the place `(f, P)`
of the node `a`:

    a comes first in t,  and t is SpineFull
      ⟺  next P comes first in erase f P,  and erase f P is SpineFull
                                                        (`postorder_step`)

Both directions matter.  Down the walk, the successor stays the first node of what is
left, so nothing is skipped; up the walk, a successor that is not the first node can
never become one again.

In a balanced tree the first node in post-order is one of the first two in order
(`firstPostorder_mem_take`), which settles most of the second half; the rest is the
bottom case of the rebalancing (`repair_bottom`), the only one that can change what
comes first, and `eraseColor_spine` for the frames above it.
-/
import KernelLab.Lib.RbTree.Rebalance

namespace KernelLab.RbTree

open RbNode

variable {α : Type*}

/-- Down to the left where there is a left child, else to the right. -/
def firstPostorder : RbNode α → Option α
  | .nil => none
  | .node _ .nil a .nil => some a
  | .node _ .nil _ r => firstPostorder r
  | .node _ l _ _ => firstPostorder l

/-- The node after the focus: the parent, unless its right subtree comes before it. -/
def nextPostorder : List (Frame α) → Option α
  | [] => none
  | ⟨.left, _, p, .nil⟩ :: _ => some p
  | ⟨.left, _, _, s⟩ :: _ => firstPostorder s
  | ⟨.right, _, p, _⟩ :: _ => some p

theorem nextPostorder_left {k : Color} {p : α} {s : RbNode α} {up : List (Frame α)}
    (hs : s ≠ .nil) : nextPostorder (⟨.left, k, p, s⟩ :: up) = firstPostorder s := by
  cases s with
  | nil => exact absurd rfl hs
  | node => rfl

namespace RbNode

def isNil : RbNode α → Bool
  | .nil => true
  | .node _ _ _ _ => false

/-- Every node has two children or none. -/
def Full : RbNode α → Prop
  | .nil => True
  | .node _ l _ r => l.isNil = r.isNil ∧ Full l ∧ Full r

/-- Every node off the left spine has two children or none. -/
def SpineFull : RbNode α → Prop
  | .nil => True
  | .node _ l _ r => SpineFull l ∧ Full r

instance decFull : (t : RbNode α) → Decidable (Full t)
  | .nil => inferInstanceAs (Decidable True)
  | .node _ l _ r =>
      have := decFull l
      have := decFull r
      inferInstanceAs (Decidable (_ ∧ _ ∧ _))

instance decSpineFull : (t : RbNode α) → Decidable (SpineFull t)
  | .nil => inferInstanceAs (Decidable True)
  | .node _ l _ _ =>
      have := decSpineFull l
      inferInstanceAs (Decidable (_ ∧ _))

@[simp] theorem isNil_eq_true {t : RbNode α} : t.isNil = true ↔ t = nil := by
  cases t <;> simp [isNil]

theorem isNil_eq_false {t : RbNode α} (h : t ≠ nil) : t.isNil = false := by
  cases t with
  | nil => exact absurd rfl h
  | node => rfl

theorem full_node {c : Color} {l r : RbNode α} {a : α} (hl : l ≠ nil) (hr : r ≠ nil) :
    Full (node c l a r) ↔ Full l ∧ Full r := by
  simp [Full, isNil_eq_false hl, isNil_eq_false hr]

theorem full_leaf (c : Color) (a : α) : Full (node c nil a nil) := ⟨rfl, trivial, trivial⟩

@[simp] theorem full_setColor (c : Color) (t : RbNode α) : Full (t.setColor c) ↔ Full t := by
  cases t <;> rfl

end RbNode

/-! ## The first node -/

theorem firstPostorder_left {c : Color} {l r : RbNode α} {a : α} (hl : l ≠ .nil) :
    firstPostorder (.node c l a r) = firstPostorder l := by
  cases l with
  | nil => exact absurd rfl hl
  | node => rfl

theorem firstPostorder_right {c : Color} {r : RbNode α} {a : α} (hr : r ≠ .nil) :
    firstPostorder (.node c .nil a r) = firstPostorder r := by
  cases r with
  | nil => exact absurd rfl hr
  | node => rfl

theorem firstPostorder_mem {t : RbNode α} {x : α} (h : firstPostorder t = some x) :
    x ∈ t.inorder := by
  fun_induction firstPostorder t with
  | case1 => cases h
  | case2 c a => cases h; simp
  | case3 c a r hr ih => simp [ih h]
  | case4 c l a r hl hlr ih => simp [ih h]

theorem nextPostorder_mem {P : List (Frame α)} {x : α} (h : nextPostorder P = some x) :
    x ∈ before P ++ after P := by
  revert h
  fun_cases nextPostorder P with
  | case1 => exact nofun
  | case2 =>
      rintro ⟨rfl⟩
      simp [after]
  | case3 k p s up hs =>
      intro h
      simp [after, firstPostorder_mem h]
  | case4 =>
      rintro ⟨rfl⟩
      simp [before]

theorem firstPostorder_eq_none {t : RbNode α} : firstPostorder t = none ↔ t = .nil := by
  fun_induction firstPostorder t with
  | case1 => simp
  | case2 => simp
  | case3 c a r hr ih => simpa [ih] using hr
  | case4 c l a r hl hlr ih => simpa [ih] using hlr

/-- What comes first has no children. -/
theorem firstPostorder_node {c : Color} {l r : RbNode α} {a : α}
    (hn : (RbNode.node c l a r).inorder.Nodup) (h : firstPostorder (.node c l a r) = some a) :
    l = .nil ∧ r = .nil := by
  rw [inorder_node, List.nodup_append, List.nodup_cons] at hn
  obtain ⟨-, ⟨hr, -⟩, hl⟩ := hn
  have hl' : l = .nil := by
    by_contra hne
    rw [firstPostorder_left hne] at h
    exact hl a (firstPostorder_mem h) a List.mem_cons_self rfl
  subst hl'
  refine ⟨rfl, ?_⟩
  by_contra hne
  rw [firstPostorder_right hne] at h
  exact hr (firstPostorder_mem h)

/-- In a balanced tree what comes first in post-order is first or second in order: a
leftmost node has a red leaf to its right, or nothing. -/
theorem firstPostorder_mem_take {t : RbNode α} {c : Color} {n : Nat} {x : α} (ht : RedBlack t c n)
    (h : firstPostorder t = some x) : x ∈ t.inorder.take 2 := by
  have step {c c₁ c₂ : Color} {l r : RbNode α} {a : α} {n : Nat} (hl : RedBlack l c₁ n)
      (hr : RedBlack r c₂ n) (ih : firstPostorder l = some x → x ∈ l.inorder.take 2)
      (h : firstPostorder (.node c l a r) = some x) :
      x ∈ (l.inorder ++ a :: r.inorder).take 2 := by
    by_cases hne : l = .nil
    · subst hne
      cases hl
      rcases hr.height_zero with rfl | ⟨y, rfl⟩
      · cases h; simp
      · cases h; simp
    · rw [firstPostorder_left hne] at h
      rw [List.take_append]
      exact List.mem_append_left _ (ih h)
  induction ht with
  | nil => cases h
  | red hl hr ihl _ => exact step hl hr ihl h
  | black hl hr ihl _ => exact step hl hr ihl h

/-! ## The left spine

A path with nothing to the left of its focus runs down the left spine. -/

theorem before_left {k : Color} {p : α} {s : RbNode α} {up : List (Frame α)} :
    before (⟨.left, k, p, s⟩ :: up) = before up := rfl

theorem before_right {k : Color} {p : α} {s : RbNode α} {up : List (Frame α)} :
    before (⟨.right, k, p, s⟩ :: up) ≠ [] := by
  simp [before]

theorem firstPostorder_spine {t : RbNode α} {P : List (Frame α)} (ht : t ≠ .nil)
    (hP : before P = []) : firstPostorder (plug t P) = firstPostorder t := by
  induction P generalizing t with
  | nil => rfl
  | cons f P ih =>
      obtain ⟨d, k, p, s⟩ := f
      cases d with
      | left =>
          have hnode : RbNode.branch .left k t p s ≠ .nil := branch_ne_nil _ _ _ _ _
          exact (ih hnode hP).trans (firstPostorder_left ht)
      | right => exact absurd hP before_right

theorem spineFull_spine {t : RbNode α} {P : List (Frame α)} (hP : before P = []) :
    SpineFull (plug t P) ↔ SpineFull t ∧ ∀ f ∈ P, Full f.sibling := by
  induction P generalizing t with
  | nil => simp
  | cons f P ih =>
      obtain ⟨d, k, p, s⟩ := f
      cases d with
      | left =>
          rw [plug_cons, ih hP]
          simp [branch, SpineFull, and_assoc]
      | right => exact absurd hP before_right

/-- A subtree with a black level in it contains the first node only if it hangs on the
left spine. -/
theorem spine_of_firstPostorder {c₀ c : Color} {n₀ n : Nat} {t : RbNode α} {P : List (Frame α)}
    {x : α} (hP : Hole c₀ n₀ P c (n + 1)) (ht : RedBlack t c (n + 1)) (hx : x ∈ t.inorder)
    (hn : (plug t P).inorder.Nodup) (h : firstPostorder (plug t P) = some x) : before P = [] := by
  induction P generalizing t c n with
  | nil => rfl
  | cons f P ih =>
      obtain ⟨d, k, p, s⟩ := f
      -- the subtree at the parent has a black level as well
      obtain ⟨c', n', hg, hup⟩ : ∃ c' n', RedBlack (branch d k t p s) c' (n' + 1) ∧
          Hole c₀ n₀ P c' (n' + 1) := by
        cases hP with
        | red hs hup => exact ⟨_, _, ht.branch_red hs, hup⟩
        | black hs hup => exact ⟨_, _, ht.branch_black hs, hup⟩
      have hx' : x ∈ (branch d k t p s).inorder := by cases d <;> simp [branch, hx]
      have hspine := ih hup hg hx' hn h
      cases d with
      | left => exact hspine
      | right =>
          exfalso
          have hs : s ≠ .nil := by
            cases hP with
            | red hs _ => exact hs.ne_nil
            | black hs _ => exact hs.ne_nil
          rw [plug_cons, firstPostorder_spine (branch_ne_nil _ _ _ _ _) hspine] at h
          have hmem : x ∈ s.inorder := firstPostorder_mem ((firstPostorder_left hs).symm.trans h)
          have hn' : (branch .right k t p s).inorder.Nodup := nodup_focus hn
          exact (List.nodup_append.mp hn').2.2 x hmem x (by simp [hx]) rfl

/-- Whether the first node is `x`, seen from a subtree that contains `x`. -/
theorem firstPostorder_plug {c₀ c : Color} {n₀ n : Nat} {t : RbNode α} {P : List (Frame α)}
    {x : α} (hP : Hole c₀ n₀ P c (n + 1)) (ht : RedBlack t c (n + 1)) (hx : x ∈ t.inorder)
    (hn : (plug t P).inorder.Nodup) :
    firstPostorder (plug t P) = some x ↔ before P = [] ∧ firstPostorder t = some x := by
  constructor
  · intro h
    have hspine := spine_of_firstPostorder hP ht hx hn h
    exact ⟨hspine, (firstPostorder_spine ht.ne_nil hspine).symm.trans h⟩
  · rintro ⟨hspine, h⟩
    exact (firstPostorder_spine ht.ne_nil hspine).trans h

/-! ## Rebalancing along the spine -/

/-- At the bottom, where a black leaf went: in a sibling with two children or none the
first node stays the first, and in any other the parent comes before it. -/
theorem repair_bottom {k : Color} {p : α} {s : RbNode α} (hs : RedBlack s .black 1) :
    (firstPostorder (repair .left k .nil p s) = firstPostorder s ∧
      (SpineFull (repair .left k .nil p s) ↔ Full s)) ∨
    (firstPostorder (repair .left k .nil p s) = some p ∧ ¬ Full s) := by
  rcases repair_cases (d := .left) (c := k) (t := .nil) (p := p) hs with
    ⟨near, x, far, rfl, -, hnear, hfar, h⟩ | ⟨near, x, far, k', rfl, -, hnear, hfar, h⟩ |
    ⟨nn, y, nf, x, far, rfl, -, hnn, hnf, hfar, h⟩
  · rw [h]
    cases hnear
    cases hfar
    exact .inl ⟨rfl, iff_of_true ⟨trivial, full_leaf _ _⟩ (full_leaf _ _)⟩
  · rw [h]
    obtain ⟨z, rfl⟩ : ∃ z, far = .node .red .nil z .nil := by
      rcases hfar.height_zero with rfl | hz
      · cases hfar
      · exact hz
    rcases hnear.height_zero with rfl | ⟨y, rfl⟩
    · exact .inr ⟨rfl, fun hf => Bool.noConfusion hf.1⟩
    · refine .inl ⟨rfl, iff_of_true ?_ ⟨rfl, full_leaf _ _, full_leaf _ _⟩⟩
      exact ⟨⟨trivial, full_leaf _ _⟩, full_leaf _ _⟩
  · rw [h]
    cases hnn
    cases hnf
    cases hfar
    exact .inr ⟨rfl, fun hf => Bool.noConfusion hf.1⟩

/-- Further up every rotation leaves two children where there were two. -/
theorem repair_above {k : Color} {p : α} {s t : RbNode α} {n : Nat} (ht : RedBlack t .black (n + 1))
    (hs : RedBlack s .black (n + 2)) :
    firstPostorder (repair .left k t p s) = firstPostorder t ∧
      (SpineFull (repair .left k t p s) ↔ SpineFull t ∧ Full s) := by
  rcases repair_cases (d := .left) (c := k) (t := t) (p := p) hs with
    ⟨near, x, far, rfl, -, hnear, hfar, h⟩ | ⟨near, x, far, k', rfl, -, hnear, hfar, h⟩ |
    ⟨nn, y, nf, x, far, rfl, -, hnn, hnf, hfar, h⟩
  · rw [h]
    exact ⟨firstPostorder_left ht.ne_nil, Iff.rfl⟩
  · rw [h]
    refine ⟨(firstPostorder_left (branch_ne_nil .left _ _ _ _)).trans
      (firstPostorder_left ht.ne_nil), ?_⟩
    simp only [branch, SpineFull, full_node hnear.ne_nil hfar.ne_nil, full_setColor]
    exact and_assoc
  · rw [h]
    refine ⟨(firstPostorder_left (branch_ne_nil .left _ _ _ _)).trans
      (firstPostorder_left ht.ne_nil), ?_⟩
    have hnear : RbNode.branch .left .red nn y nf ≠ .nil := branch_ne_nil _ _ _ _ _
    simp only [branch, SpineFull] at hnear ⊢
    rw [full_node hnear hfar.ne_nil, full_node hnn.ne_nil hnf.ne_nil,
      full_node hnf.ne_nil hfar.ne_nil]
    simp only [and_assoc]

theorem eraseColor_spine {c₀ c : Color} {n₀ n : Nat} {t : RbNode α} {P : List (Frame α)}
    (hspine : before P = []) (hP : Hole c₀ n₀ P c (n + 2)) (ht : RedBlack t .black (n + 1)) :
    firstPostorder (eraseColor t P) = firstPostorder t ∧
      (SpineFull (eraseColor t P) ↔ SpineFull t ∧ ∀ f ∈ P, Full f.sibling) := by
  induction P generalizing t c n with
  | nil => simp [eraseColor]
  | cons f P ih =>
      obtain ⟨d, k, p, s⟩ := f
      cases d with
      | right => exact absurd hspine before_right
      | left =>
          rw [before_left] at hspine
          simp only [List.forall_mem_cons]
          -- what the frame becomes, where the level is made good in it
          have hplug (g : RbNode α) (hne : g ≠ .nil) (hg : firstPostorder g = firstPostorder t ∧
              (SpineFull g ↔ SpineFull t ∧ Full s)) :
              firstPostorder (plug g P) = firstPostorder t ∧
                (SpineFull (plug g P) ↔ SpineFull t ∧ Full s ∧ ∀ f ∈ P, Full f.sibling) := by
            rw [firstPostorder_spine hne hspine, spineFull_spine hspine, hg.2, and_assoc]
            exact ⟨hg.1, Iff.rfl⟩
          cases eraseColor_frame hP with
          | settled hs _ h =>
              rw [h]
              exact hplug _ (repair_ne_nil hs) (repair_above ht hs)
          | rotated near x far hs hnear hfar hup h =>
              subst hs
              rw [h]
              obtain ⟨hfirst, hfull⟩ := repair_above (k := .red) (p := p) ht hnear
              refine hplug _ (branch_ne_nil _ _ _ _ _) ⟨?_, ?_⟩
              · exact (firstPostorder_left (repair_ne_nil hnear)).trans hfirst
              · simp only [branch, SpineFull]
                rw [hfull, full_node hnear.ne_nil hfar.ne_nil, and_assoc]
          | short hs hkids hup h =>
              rw [h]
              have hg := repair_black (d := .left) (p := p) ht hs
              rw [hkids] at hg
              obtain ⟨hfirst, hfull⟩ := ih hspine hup hg
              obtain ⟨hfirst', hfull'⟩ := repair_above (k := .black) (p := p) ht hs
              rw [hfirst, hfull, hfull', and_assoc]
              exact ⟨hfirst', Iff.rfl⟩

/-- The same from the bottom.  The first node of the sibling stays the first, unless
the parent overtakes it. -/
theorem eraseColor_bottom {c₀ c k : Color} {n₀ : Nat} {p : α} {s : RbNode α} {up : List (Frame α)}
    (hspine : before up = []) (hP : Hole c₀ n₀ (⟨.left, k, p, s⟩ :: up) c 1) :
    (firstPostorder (eraseColor .nil (⟨.left, k, p, s⟩ :: up)) = firstPostorder s ∧
      (SpineFull (eraseColor .nil (⟨.left, k, p, s⟩ :: up)) ↔
        Full s ∧ ∀ f ∈ up, Full f.sibling)) ∨
    (firstPostorder (eraseColor .nil (⟨.left, k, p, s⟩ :: up)) = some p ∧ ¬ Full s) := by
  -- `g` is what the frame becomes
  have hplug (t' g : RbNode α) (hfirst : firstPostorder t' = firstPostorder g)
      (hfull : SpineFull t' ↔ SpineFull g ∧ ∀ f ∈ up, Full f.sibling)
      (hg : (firstPostorder g = firstPostorder s ∧ (SpineFull g ↔ Full s)) ∨
        (firstPostorder g = some p ∧ ¬ Full s)) :
      (firstPostorder t' = firstPostorder s ∧
        (SpineFull t' ↔ Full s ∧ ∀ f ∈ up, Full f.sibling)) ∨
      (firstPostorder t' = some p ∧ ¬ Full s) := by
    rw [hfirst, hfull]
    rcases hg with ⟨h, hs⟩ | h
    · exact .inl ⟨h, by rw [hs]⟩
    · exact .inr h
  cases eraseColor_frame hP with
  | settled hs _ h =>
      rw [h]
      exact hplug _ _ (firstPostorder_spine (repair_ne_nil hs) hspine) (spineFull_spine hspine)
        (repair_bottom hs)
  | rotated near x far hs hnear hfar hup h =>
      subst hs
      rw [h]
      refine hplug _ _ (firstPostorder_spine (branch_ne_nil _ _ _ _ _) hspine)
        (spineFull_spine hspine) ?_
      simp only [branch, SpineFull]
      rw [firstPostorder_left (repair_ne_nil hnear), firstPostorder_left hnear.ne_nil,
        full_node hnear.ne_nil hfar.ne_nil]
      rcases repair_bottom (k := .red) (p := p) hnear with ⟨h, hfull⟩ | ⟨h, hf⟩
      · exact .inl ⟨h, and_congr_left' hfull⟩
      · exact .inr ⟨h, fun h => hf h.1⟩
  | short hs hkids hup h =>
      rw [h]
      have hg := repair_black (d := .left) (p := p) .nil hs
      rw [hkids] at hg
      obtain ⟨hfirst, hfull⟩ := eraseColor_spine hspine hup hg
      exact hplug _ _ hfirst hfull (repair_bottom hs)

/-! ## One step of the walk -/

/-- The walk stands at the first node of a tree it can take down. -/
def OnTrack (t : RbNode α) (pos : Option α) : Prop := firstPostorder t = pos ∧ SpineFull t

theorem onTrack_none {t : RbNode α} : OnTrack t none ↔ t = .nil := by
  constructor
  · intro h
    exact firstPostorder_eq_none.mp h.1
  · rintro rfl
    exact ⟨rfl, trivial⟩

theorem onTrack_plug {c₀ c : Color} {n₀ n : Nat} {t : RbNode α} {P : List (Frame α)} {x : α}
    (hP : Hole c₀ n₀ P c (n + 1)) (ht : RedBlack t c (n + 1)) (hx : x ∈ t.inorder)
    (hn : (plug t P).inorder.Nodup) :
    OnTrack (plug t P) (some x) ↔ before P = [] ∧ OnTrack t (some x) ∧
      ∀ f ∈ P, Full f.sibling := by
  unfold OnTrack
  rw [firstPostorder_plug hP ht hx hn]
  constructor
  · rintro ⟨⟨hspine, h⟩, hfull⟩
    obtain ⟨hfull, hsib⟩ := (spineFull_spine hspine).mp hfull
    exact ⟨hspine, ⟨h, hfull⟩, hsib⟩
  · rintro ⟨hspine, ⟨h, hfull⟩, hsib⟩
    exact ⟨⟨hspine, h⟩, (spineFull_spine hspine).mpr ⟨hfull, hsib⟩⟩

theorem nodup_erase {c : Color} {l : RbNode α} {a : α} {r : RbNode α} {P : List (Frame α)}
    (hn : (plug (.node c l a r) P).inorder.Nodup) : (erase (.node c l a r) P).inorder.Nodup := by
  rw [inorder_plug, inorder_node] at hn
  rw [inorder_erase]
  refine hn.sublist (.append_right (.append_left (.append_left (List.sublist_cons_self _ _) _) _) _)

/-- What comes first in a balanced tree has at most one node before it in order. -/
theorem length_before_first {t : RbNode α} {c : Color} {n : Nat} {x : α} {X Z : List α}
    (ht : RedBlack t c n) (hn : t.inorder.Nodup) (hin : t.inorder = X ++ Z) (hx : x ∈ Z)
    (h : firstPostorder t = some x) : X.length ≤ 1 := by
  have hmem := firstPostorder_mem_take ht h
  rw [hin] at hn hmem
  by_contra hlen
  have hlen' : 2 - X.length = 0 := by omega
  rw [List.take_append, hlen', List.take_zero, List.append_nil] at hmem
  exact (List.nodup_append.mp hn).2.2 x (List.mem_of_mem_take hmem) x hx rfl

/-- A red leaf goes without rebalancing. -/
theorem step_red_leaf {d : Dir} {k : Color} {p a : α} {s : RbNode α} {up : List (Frame α)}
    {n₀ : Nat} (hP : Hole .black n₀ (⟨d, k, p, s⟩ :: up) .red 0)
    (hn : (plug (.node .red .nil a .nil) (⟨d, k, p, s⟩ :: up)).inorder.Nodup) :
    OnTrack (plug (.node .red .nil a .nil) (⟨d, k, p, s⟩ :: up)) (some a) ↔
      OnTrack (erase (.node .red .nil a .nil) (⟨d, k, p, s⟩ :: up))
        (nextPostorder (⟨d, k, p, s⟩ :: up)) := by
  cases hP with
  | black hs hup =>
      have hleaf : RedBlack (RbNode.node .red .nil a .nil) .red 0 := .red .nil .nil
      obtain ⟨q, hq, hmem, h⟩ : ∃ q, nextPostorder (⟨d, .black, p, s⟩ :: up) = some q ∧
          q ∈ (branch d .black .nil p s).inorder ∧
          (OnTrack (branch d .black (.node .red .nil a .nil) p s) (some a) ↔
            OnTrack (branch d .black .nil p s) (some q)) := by
        rcases hs.height_zero with rfl | ⟨x, rfl⟩
        · refine ⟨p, by cases d <;> rfl, by cases d <;> simp [branch], iff_of_true ?_ ?_⟩
          · cases d with
            | left => exact ⟨rfl, ⟨trivial, trivial⟩, trivial⟩
            | right => exact ⟨rfl, trivial, full_leaf _ _⟩
          · cases d <;> exact ⟨rfl, trivial, trivial⟩
        · cases d with
          | left =>
              refine ⟨x, rfl, by simp [branch], iff_of_true ?_ ?_⟩
              · exact ⟨rfl, ⟨trivial, trivial⟩, full_leaf _ _⟩
              · exact ⟨rfl, trivial, full_leaf _ _⟩
          | right =>
              -- the sibling comes first, before and after
              have hn' := nodup_focus (plug_cons _ _ _ ▸ hn)
              simp [branch] at hn'
              refine ⟨p, rfl, by simp [branch], iff_of_false ?_ ?_⟩
              · exact fun h => hn'.1.2 (Option.some.inj h.1)
              · exact fun h => hn'.1.1 (Option.some.inj h.1)
      have hn' := nodup_erase hn
      have herase : erase (.node .red .nil a .nil) (⟨d, .black, p, s⟩ :: up) =
          plug (branch d .black .nil p s) up := rfl
      rw [herase] at hn' ⊢
      rw [hq, onTrack_plug hup (.branch_black .nil hs) hmem hn', plug_cons,
        onTrack_plug hup (hleaf.branch_black hs) (by cases d <;> simp [branch]) hn, h]

/-- A black leaf that is a left child is rebalanced against its sibling. -/
theorem step_black_leaf {k : Color} {p a : α} {s : RbNode α} {up : List (Frame α)} {n₀ : Nat}
    {c : Color} (hP : Hole .black n₀ (⟨.left, k, p, s⟩ :: up) c 1)
    (hn : (plug (.node .black .nil a .nil) (⟨.left, k, p, s⟩ :: up)).inorder.Nodup) :
    OnTrack (plug (.node .black .nil a .nil) (⟨.left, k, p, s⟩ :: up)) (some a) ↔
      OnTrack (erase (.node .black .nil a .nil) (⟨.left, k, p, s⟩ :: up))
        (nextPostorder (⟨.left, k, p, s⟩ :: up)) := by
  have hleaf : RedBlack (RbNode.node .black .nil a .nil) .black 1 := .black .nil .nil
  obtain ⟨c', hs⟩ := hP.sibling
  obtain ⟨x, hx⟩ : ∃ x, firstPostorder s = some x :=
    Option.ne_none_iff_exists'.mp fun h => hs.ne_nil (firstPostorder_eq_none.mp h)
  have hxs := firstPostorder_mem hx
  have hn' := nodup_erase hn
  have hin : (erase (.node .black .nil a .nil) (⟨.left, k, p, s⟩ :: up)).inorder =
      (before up ++ [p]) ++ (s.inorder ++ after up) := by
    simp [inorder_erase, before, after]
  have herase : erase (.node .black .nil a .nil) (⟨.left, k, p, s⟩ :: up) =
      eraseColor .nil (⟨.left, k, p, s⟩ :: up) := rfl
  rw [onTrack_plug hP.takes_black hleaf (by simp) hn, before_left, List.forall_mem_cons,
    nextPostorder_left hs.ne_nil]
  by_cases hspine : before up = []
  · have hp : firstPostorder s ≠ some p := by
      intro h
      rw [hin, hspine] at hn'
      exact (List.nodup_append.mp hn').2.2 p (by simp) p
        (List.mem_append_left _ (firstPostorder_mem h)) rfl
    have hleaf : OnTrack (RbNode.node .black .nil a .nil) (some a) := ⟨rfl, trivial, trivial⟩
    rw [herase]
    rcases eraseColor_bottom hspine hP with ⟨hfirst, hfull⟩ | ⟨hfirst, hfull⟩
    · simp only [OnTrack, hfirst, hfull, hspine, true_and]
      exact and_iff_right hleaf
    · refine iff_of_false (fun h => hfull h.2.2.1) fun h => hp (h.1.symm.trans hfirst)
  · -- too far to the right, before and after
    refine iff_of_false (fun h => hspine h.1) ?_
    intro h
    obtain ⟨m, hb⟩ := eraseColor_redBlack hP .nil
    have hlen := length_before_first hb hn' hin (List.mem_append_left _ hxs) (h.1.trans hx)
    simp at hlen
    exact hspine hlen

/-- Left of its parent, a node with children is not followed by the first node. -/
theorem off_track_left {c c' k : Color} {l r : RbNode α} {p a : α} {s : RbNode α}
    {up : List (Frame α)} {n₀ n : Nat} (hf : RedBlack (.node c l a r) c' (n + 1))
    (hP : Hole .black n₀ (⟨.left, k, p, s⟩ :: up) c' (n + 1))
    (hn : (plug (.node c l a r) (⟨.left, k, p, s⟩ :: up)).inorder.Nodup)
    (hlr : ¬ (l = .nil ∧ r = .nil)) :
    firstPostorder (erase (.node c l a r) (⟨.left, k, p, s⟩ :: up)) ≠
      nextPostorder (⟨.left, k, p, s⟩ :: up) := by
  obtain ⟨c', hs⟩ := hP.sibling
  obtain ⟨m, hb⟩ := erase_redBlack (hP.plug_redBlack hf)
  rw [nextPostorder_left hs.ne_nil]
  intro h
  obtain ⟨x, hx⟩ : ∃ x, firstPostorder s = some x :=
    Option.ne_none_iff_exists'.mp fun h => hs.ne_nil (firstPostorder_eq_none.mp h)
  have hin : (erase (.node c l a r) (⟨.left, k, p, s⟩ :: up)).inorder =
      (before up ++ (l.inorder ++ r.inorder) ++ [p]) ++ (s.inorder ++ after up) := by
    simp [inorder_erase, before, after]
  have hlen := length_before_first hb (nodup_erase hn) hin
    (List.mem_append_left _ (firstPostorder_mem hx)) (h.trans hx)
  have hempty : l.inorder ++ r.inorder = [] := by
    rw [← List.length_eq_zero_iff]
    simp at hlen ⊢
    omega
  rw [List.append_eq_nil_iff, inorder_eq_nil, inorder_eq_nil] at hempty
  exact hlr hempty

/-- Right of its parent, no node of a tree with a black level is. -/
theorem off_track_right {c c' k : Color} {l r : RbNode α} {p a : α} {s : RbNode α}
    {up : List (Frame α)} {n₀ n : Nat} (hf : RedBlack (.node c l a r) c' (n + 1))
    (hP : Hole .black n₀ (⟨.right, k, p, s⟩ :: up) c' (n + 1))
    (hn : (plug (.node c l a r) (⟨.right, k, p, s⟩ :: up)).inorder.Nodup) :
    firstPostorder (erase (.node c l a r) (⟨.right, k, p, s⟩ :: up)) ≠ some p := by
  intro h
  obtain ⟨c', hs⟩ := hP.sibling
  obtain ⟨m, hb⟩ := erase_redBlack (hP.plug_redBlack hf)
  have hn' := nodup_erase hn
  have hin : (erase (.node c l a r) (⟨.right, k, p, s⟩ :: up)).inorder =
      (before up ++ s.inorder) ++ (p :: (l.inorder ++ r.inorder) ++ after up) := by
    simp [inorder_erase, before, after]
  have hlen := length_before_first hb hn' hin (by simp) h
  rw [List.length_append, length_inorder] at hlen
  obtain ⟨rfl, y, hleaf⟩ := hs.size_le_one (by simp only; omega)
  -- so the sibling is a black leaf `y`, and the parent is on the left spine
  simp only at hleaf
  subst hleaf
  have hspine : before up = [] :=
    List.length_eq_zero_iff.mp (by simp only [size] at hlen; omega)
  have hy : some y ≠ some p := by
    rintro ⟨rfl⟩
    rw [hin] at hn'
    exact (List.nodup_append.mp hn').2.2 p (by simp) p (by simp) rfl
  rcases erase_cases hf (⟨.right, k, p, .node .black .nil y .nil⟩ :: up) with
    ⟨k', -, -, he⟩ | ⟨m', hm, hb', he⟩
  · rw [he, plug_cons, firstPostorder_spine (branch_ne_nil _ _ _ _ _) hspine] at h
    exact hy h
  · obtain rfl : m' = 0 := by omega
    generalize erase (.node c l a r) [] = f' at hb' he
    cases hb'
    -- the sibling turns red, and is the first node from now on
    rw [he, eraseColor_black_sibling rfl] at h
    split at h
    · rename_i hk
      cases hP with
      | red => cases hk.1
      | black _ hup =>
          have hg := repair_black (d := .right) (p := p) .nil
            (.black .nil .nil : RedBlack (.node .black .nil y .nil) .black 1)
          exact hy ((eraseColor_spine hspine hup hg).1.symm.trans h)
    · have hrepair : repair .right k .nil p (.node .black .nil y .nil) =
          .branch .right .black .nil p (.node .red .nil y .nil) := rfl
      rw [hrepair, firstPostorder_spine (branch_ne_nil _ _ _ _ _) hspine] at h
      exact hy h

/-- The walk is on track before the erasure exactly when it is on track after it. -/
theorem postorder_step {c : Color} {l : RbNode α} {a : α} {r : RbNode α} {P : List (Frame α)}
    {n₀ : Nat} (hb : RedBlack (plug (.node c l a r) P) .black n₀)
    (hn : (plug (.node c l a r) P).inorder.Nodup) :
    OnTrack (plug (.node c l a r) P) (some a) ↔
      OnTrack (erase (.node c l a r) P) (nextPostorder P) := by
  cases P with
  | nil =>
      rw [show nextPostorder ([] : List (Frame α)) = none from rfl, onTrack_none,
        ← inorder_eq_nil, inorder_erase]
      simp only [before, after, List.nil_append, List.append_nil, List.append_eq_nil_iff,
        inorder_eq_nil]
      constructor
      · intro h
        exact firstPostorder_node hn h.1
      · rintro ⟨rfl, rfl⟩
        exact ⟨rfl, trivial, trivial⟩
  | cons f up =>
      obtain ⟨d, k, p, s⟩ := f
      obtain ⟨c', n, hf, hP⟩ := Hole.of_plug hb
      cases n with
      | zero =>
          rcases hf.height_zero with h | ⟨x, h⟩
          · cases h
          · cases h
            cases hf
            exact step_red_leaf hP hn
      | succ n =>
          have hfirst := firstPostorder_plug hP hf (x := a) (by simp) hn
          by_cases hlr : l = .nil ∧ r = .nil
          · obtain ⟨rfl, rfl⟩ := hlr
            cases d with
            | left =>
                cases hf with
                | red hl _ => cases hl
                | black hl _ =>
                    cases hl
                    exact step_black_leaf hP hn
            | right =>
                refine iff_of_false ?_ fun h => off_track_right hf hP hn h.1
                exact fun h => before_right (hfirst.mp h.1).1
          · refine iff_of_false ?_ ?_
            · intro h
              exact hlr (firstPostorder_node (nodup_focus hn) (hfirst.mp h.1).2)
            · intro h
              cases d with
              | left => exact off_track_left hf hP hn hlr h.1
              | right => exact off_track_right hf hP hn h.1

end KernelLab.RbTree
