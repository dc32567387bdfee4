/-
# `KernelLab.Lib.RbTree.Ordered` — search trees

A tree is ordered by a key when its in-order sequence is.  Two facts are read from
that: what a comparison with the root says about where a value can be, for the
descents, and where a key fits between what is left and right of a path, for linking a
node in at the end of one.
-/
import KernelLab.Lib.RbTree.Basic

namespace KernelLab.RbTree

open RbNode

variable {α K : Type*} [LinearOrder K] {κ : α → K}

/-- The in-order keys increase strictly. -/
def Ordered (κ : α → K) (t : RbNode α) : Prop := t.inorder.Pairwise fun a b => κ a < κ b

namespace Ordered

theorem node_iff {c : Color} {l r : RbNode α} {a : α} :
    Ordered κ (.node c l a r) ↔ Ordered κ l ∧ Ordered κ r ∧
      (∀ x ∈ l.inorder, κ x < κ a) ∧ ∀ y ∈ r.inorder, κ a < κ y := by
  unfold Ordered
  rw [inorder_node, List.pairwise_append, List.pairwise_cons]
  constructor
  · rintro ⟨hl, ⟨ha, hr⟩, h⟩
    exact ⟨hl, hr, fun x hx => h x hx a List.mem_cons_self, ha⟩
  · rintro ⟨hl, hr, hla, har⟩
    refine ⟨hl, ⟨har, hr⟩, ?_⟩
    intro x hx y hy
    rcases List.mem_cons.mp hy with rfl | hy
    · exact hla x hx
    · exact (hla x hx).trans (har y hy)

variable {c : Color} {l r : RbNode α} {a x : α}

/-- A smaller key is found on the left only. -/
theorem mem_left (h : Ordered κ (.node c l a r)) (hx : x ∈ (RbNode.node c l a r).inorder)
    (hlt : κ x < κ a) : x ∈ l.inorder := by
  obtain ⟨-, -, -, har⟩ := node_iff.mp h
  simp only [inorder_node, List.mem_append, List.mem_cons] at hx
  rcases hx with hx | rfl | hx
  · exact hx
  · exact absurd hlt (lt_irrefl _)
  · exact absurd hlt (har x hx).not_gt

/-- A greater key is found on the right only. -/
theorem mem_right (h : Ordered κ (.node c l a r)) (hx : x ∈ (RbNode.node c l a r).inorder)
    (hlt : κ a < κ x) : x ∈ r.inorder := by
  obtain ⟨-, -, hla, -⟩ := node_iff.mp h
  simp only [inorder_node, List.mem_append, List.mem_cons] at hx
  rcases hx with hx | rfl | hx
  · exact absurd hlt (hla x hx).not_gt
  · exact absurd hlt (lt_irrefl _)
  · exact hx

/-- The root's key is found at the root only. -/
theorem eq_root (h : Ordered κ (.node c l a r)) (hx : x ∈ (RbNode.node c l a r).inorder)
    (hxa : κ x = κ a) : x = a := by
  obtain ⟨-, -, hla, har⟩ := node_iff.mp h
  simp only [inorder_node, List.mem_append, List.mem_cons] at hx
  rcases hx with hx | rfl | hx
  · exact absurd hxa (hla x hx).ne
  · rfl
  · exact absurd hxa (har x hx).ne'

end Ordered

/-- The key `k` belongs at the place the path ends in. -/
def Fits (κ : α → K) (k : K) (P : List (Frame α)) : Prop :=
  (∀ x ∈ before P, κ x < k) ∧ ∀ y ∈ after P, k < κ y

namespace Fits

variable {k : K} {P : List (Frame α)} {c : Color} {l r : RbNode α} {a : α}

theorem nil : Fits κ k ([] : List (Frame α)) := ⟨nofun, nofun⟩

theorem left (hP : Fits κ k P) (h : Ordered κ (.node c l a r)) (hlt : k < κ a) :
    Fits κ k (⟨.left, c, a, r⟩ :: P) := by
  refine ⟨hP.1, ?_⟩
  intro y hy
  obtain ⟨-, -, -, har⟩ := Ordered.node_iff.mp h
  simp only [after, List.cons_append, List.mem_cons, List.mem_append] at hy
  rcases hy with rfl | hy | hy
  · exact hlt
  · exact hlt.trans (har y hy)
  · exact hP.2 y hy

theorem right (hP : Fits κ k P) (h : Ordered κ (.node c l a r)) (hlt : κ a < k) :
    Fits κ k (⟨.right, c, a, l⟩ :: P) := by
  refine ⟨?_, hP.2⟩
  intro x hx
  obtain ⟨-, -, hla, -⟩ := Ordered.node_iff.mp h
  simp only [before, List.mem_append, List.mem_singleton] at hx
  rcases hx with (hx | hx) | rfl
  · exact hP.1 x hx
  · exact (hla x hx).trans hlt
  · exact hlt

/-- A value whose key fits can be put in. -/
theorem pairwise_insert (hP : Fits κ (κ a) P) (h : Ordered κ (plug .nil P)) :
    (before P ++ a :: after P).Pairwise fun a b => κ a < κ b := by
  unfold Ordered at h
  rw [inorder_plug, inorder_nil, List.append_nil] at h
  obtain ⟨hbefore, hafter, hcross⟩ := List.pairwise_append.mp h
  refine List.pairwise_append.mpr ⟨hbefore, List.pairwise_cons.mpr ⟨hP.2, hafter⟩, ?_⟩
  intro x hx y hy
  rcases List.mem_cons.mp hy with rfl | hy
  · exact hP.1 x hx
  · exact hcross x hx y hy

end Fits

end KernelLab.RbTree
