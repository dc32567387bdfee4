/-
# `KernelLab.Lib.RbTree.Basic` — coloured binary trees, and places in them

A node of an intrusive tree is reached from its own links: its children below, its
parent above.  Here a place is a *focus* (the subtree hanging there) with the *path*
of frames above it, innermost first, and `plug` puts the two together again.

The left and right forms of every rotation are one form read from two sides.
`branch d` builds a node whose child on side `d` comes first, `turn d` reads one that
way, and a definition or proof by side is written once.

`RedBlack` is the red-black discipline for a tree, `Hole` the same for a path: a tree
of height `n₀` with one subtree of height `n` missing.
-/
import Mathlib

namespace KernelLab.RbTree

inductive Color where
  | red
  | black
  deriving DecidableEq, Repr

inductive Dir where
  | left
  | right
  deriving DecidableEq, Repr

inductive RbNode (α : Type*) where
  | nil
  | node (c : Color) (l : RbNode α) (a : α) (r : RbNode α)
  deriving DecidableEq, Repr

/-- One node above the focus: the side the focus hangs on, and the rest of the node. -/
structure Frame (α : Type*) where
  dir : Dir
  color : Color
  val : α
  sibling : RbNode α
  deriving DecidableEq, Repr

variable {α : Type*}

namespace RbNode

/-- The node whose child on side `d` is `near`. -/
def branch (d : Dir) (c : Color) (near : RbNode α) (a : α) (far : RbNode α) : RbNode α :=
  match d with
  | .left => .node c near a far
  | .right => .node c far a near

/-- The same tree, with the child on side `d` of its root standing first. -/
def turn (d : Dir) : RbNode α → RbNode α
  | .nil => .nil
  | .node c l a r => .branch d c l a r

/-- An absent node counts as black. -/
def color : RbNode α → Color
  | .nil => .black
  | .node c _ _ _ => c

def setColor (c : Color) : RbNode α → RbNode α
  | .nil => .nil
  | .node _ l a r => .node c l a r

def size : RbNode α → Nat
  | .nil => 0
  | .node _ l _ r => size l + size r + 1

def inorder : RbNode α → List α
  | .nil => []
  | .node _ l a r => inorder l ++ a :: inorder r

@[simp] theorem turn_nil (d : Dir) : turn d (nil : RbNode α) = nil := rfl

@[simp] theorem turn_branch (d : Dir) (c : Color) (near : RbNode α) (a : α) (far : RbNode α) :
    turn d (branch d c near a far) = node c near a far := by
  cases d <;> rfl

@[simp] theorem color_branch (d : Dir) (c : Color) (near : RbNode α) (a : α) (far : RbNode α) :
    (branch d c near a far).color = c := by
  cases d <;> rfl

theorem color_black {t : RbNode α} (h : t.color ≠ .red) : t.color = .black := by
  cases hc : t.color with
  | red => exact absurd hc h
  | black => rfl

@[simp] theorem branch_ne_nil (d : Dir) (c : Color) (near : RbNode α) (a : α) (far : RbNode α) :
    branch d c near a far ≠ nil := by
  cases d <;> nofun

@[simp] theorem inorder_nil : (nil : RbNode α).inorder = [] := rfl

@[simp] theorem inorder_node (c : Color) (l : RbNode α) (a : α) (r : RbNode α) :
    (node c l a r).inorder = l.inorder ++ a :: r.inorder := rfl

@[simp] theorem inorder_setColor (c : Color) (t : RbNode α) :
    (t.setColor c).inorder = t.inorder := by
  cases t <;> rfl

theorem inorder_eq_nil {t : RbNode α} : t.inorder = [] ↔ t = nil := by
  cases t <;> simp

@[simp] theorem length_inorder (t : RbNode α) : t.inorder.length = t.size := by
  induction t with
  | nil => rfl
  | node c l a r ihl ihr =>
      simp only [inorder_node, List.length_append, List.length_cons, ihl, ihr, size]
      omega

/-- Reading a tree by side `d`: it is empty, or a `branch d`. -/
@[elab_as_elim]
theorem branchCases (d : Dir) {motive : RbNode α → Prop} (nil : motive .nil)
    (branch : ∀ c near a far, motive (.branch d c near a far)) (t : RbNode α) : motive t := by
  cases t with
  | nil => exact nil
  | node c l a r =>
      cases d with
      | left => exact branch c l a r
      | right => exact branch c r a l

end RbNode

open RbNode

/-! ## Paths -/

/-- The tree with the focus back in its place. -/
def plug (t : RbNode α) : List (Frame α) → RbNode α
  | [] => t
  | f :: up => plug (.branch f.dir f.color t f.val f.sibling) up

/-- What stands to the left of the focus. -/
def before : List (Frame α) → List α
  | [] => []
  | ⟨.left, _, _, _⟩ :: up => before up
  | ⟨.right, _, a, s⟩ :: up => before up ++ s.inorder ++ [a]

/-- What stands to the right of the focus. -/
def after : List (Frame α) → List α
  | [] => []
  | ⟨.left, _, a, s⟩ :: up => a :: s.inorder ++ after up
  | ⟨.right, _, _, _⟩ :: up => after up

@[simp] theorem plug_nil (t : RbNode α) : plug t [] = t := rfl

theorem plug_cons (t : RbNode α) (f : Frame α) (up : List (Frame α)) :
    plug t (f :: up) = plug (.branch f.dir f.color t f.val f.sibling) up := rfl

theorem plug_append (t : RbNode α) (P Q : List (Frame α)) :
    plug t (P ++ Q) = plug (plug t P) Q := by
  induction P generalizing t with
  | nil => rfl
  | cons f P ih => exact ih _

theorem before_append (P Q : List (Frame α)) : before (P ++ Q) = before Q ++ before P := by
  induction P with
  | nil => simp [before]
  | cons f P ih =>
      obtain ⟨d, c, a, s⟩ := f
      cases d <;> simp [before, ih]

theorem after_append (P Q : List (Frame α)) : after (P ++ Q) = after P ++ after Q := by
  induction P with
  | nil => rfl
  | cons f P ih =>
      obtain ⟨d, c, a, s⟩ := f
      cases d <;> simp [after, ih]

theorem inorder_plug (t : RbNode α) (P : List (Frame α)) :
    (plug t P).inorder = before P ++ t.inorder ++ after P := by
  induction P generalizing t with
  | nil => simp [before, after]
  | cons f P ih =>
      obtain ⟨d, c, a, s⟩ := f
      cases d <;> simp [plug_cons, ih, branch, before, after]

theorem nodup_focus {t : RbNode α} {P : List (Frame α)} (h : (plug t P).inorder.Nodup) :
    t.inorder.Nodup := by
  rw [inorder_plug] at h
  exact (List.nodup_append.mp (List.nodup_append.mp h).1).2.1

/-- Only what hangs at the focus matters to the order. -/
theorem inorder_plug_congr {t t' : RbNode α} (h : t.inorder = t'.inorder) (P : List (Frame α)) :
    (plug t P).inorder = (plug t' P).inorder := by
  rw [inorder_plug, inorder_plug, h]

/-- The place of the first node that satisfies `q`, looked for from the root. -/
def locate (q : α → Bool) : RbNode α → List (Frame α) → Option (RbNode α × List (Frame α))
  | .nil, _ => none
  | .node c l a r, P =>
      if q a then some (.node c l a r, P)
      else (locate q l (⟨.left, c, a, r⟩ :: P)).or (locate q r (⟨.right, c, a, l⟩ :: P))

theorem locate_some {q : α → Bool} {t : RbNode α} {P : List (Frame α)} {f : RbNode α}
    {P' : List (Frame α)} (h : locate q t P = some (f, P')) :
    plug f P' = plug t P ∧ ∃ c l a r, f = .node c l a r ∧ q a = true := by
  induction t generalizing P with
  | nil => cases h
  | node c l a r ihl ihr =>
      rw [locate] at h
      split at h
      · rename_i hq
        cases h
        exact ⟨rfl, c, l, a, r, rfl, hq⟩
      · rcases Option.or_eq_some_iff.mp h with hl | ⟨-, hr⟩
        · exact ihl hl
        · exact ihr hr

theorem locate_eq_none {q : α → Bool} {t : RbNode α} {P : List (Frame α)} :
    locate q t P = none ↔ ∀ a ∈ t.inorder, q a = false := by
  induction t generalizing P with
  | nil => simp [locate]
  | node c l a r ihl ihr =>
      rw [locate]
      split
      · rename_i hq
        simp only [reduceCtorEq, false_iff]
        intro h
        exact absurd (h a (by simp)) (by simp [hq])
      · rename_i hq
        simp only [Option.or_eq_none_iff, ihl, ihr, inorder_node, List.mem_append, List.mem_cons]
        constructor
        · rintro ⟨hl, hr⟩ b (hb | rfl | hb)
          · exact hl b hb
          · simpa using hq
          · exact hr b hb
        · intro h
          exact ⟨fun b hb => h b (.inl hb), fun b hb => h b (.inr (.inr hb))⟩

/-! ## Balance -/

/-- No red node has a red child, and every way down meets as many black nodes: `n`. -/
inductive RedBlack : RbNode α → Color → Nat → Prop
  | nil : RedBlack .nil .black 0
  | red {l r : RbNode α} {a : α} {n : Nat} : RedBlack l .black n → RedBlack r .black n →
      RedBlack (.node .red l a r) .red n
  | black {l r : RbNode α} {a : α} {c c' : Color} {n : Nat} : RedBlack l c n → RedBlack r c' n →
      RedBlack (.node .black l a r) .black (n + 1)

/-- A tree of colour `c₀` and height `n₀` that lacks a subtree of colour `c` and height `n`. -/
inductive Hole (c₀ : Color) (n₀ : Nat) : List (Frame α) → Color → Nat → Prop
  | root : Hole c₀ n₀ [] c₀ n₀
  | red {d : Dir} {a : α} {s : RbNode α} {up : List (Frame α)} {n : Nat} :
      RedBlack s .black n → Hole c₀ n₀ up .red n → Hole c₀ n₀ (⟨d, .red, a, s⟩ :: up) .black n
  | black {d : Dir} {a : α} {s : RbNode α} {up : List (Frame α)} {c c' : Color} {n : Nat} :
      RedBlack s c' n → Hole c₀ n₀ up .black (n + 1) →
      Hole c₀ n₀ (⟨d, .black, a, s⟩ :: up) c n

namespace RedBlack

theorem branch_red {d : Dir} {s t : RbNode α} {a : α} {n : Nat} (hs : RedBlack s .black n)
    (ht : RedBlack t .black n) : RedBlack (.branch d .red s a t) .red n := by
  cases d with
  | left => exact .red hs ht
  | right => exact .red ht hs

theorem branch_black {d : Dir} {s t : RbNode α} {a : α} {c c' : Color} {n : Nat}
    (hs : RedBlack s c n) (ht : RedBlack t c' n) :
    RedBlack (.branch d .black s a t) .black (n + 1) := by
  cases d with
  | left => exact .black hs ht
  | right => exact .black ht hs

/-- Inversion of `branch_red` and `branch_black`. -/
theorem of_branch {d : Dir} {k c : Color} {near far : RbNode α} {a : α} {n : Nat}
    (h : RedBlack (.branch d k near a far) c n) :
    (k = .red ∧ c = .red ∧ RedBlack near .black n ∧ RedBlack far .black n) ∨
    (k = .black ∧ c = .black ∧
      ∃ m c₁ c₂, n = m + 1 ∧ RedBlack near c₁ m ∧ RedBlack far c₂ m) := by
  cases d with
  | left =>
      cases h with
      | red hl hr => exact .inl ⟨rfl, rfl, hl, hr⟩
      | black hl hr => exact .inr ⟨rfl, rfl, _, _, _, rfl, hl, hr⟩
  | right =>
      cases h with
      | red hl hr => exact .inl ⟨rfl, rfl, hr, hl⟩
      | black hl hr => exact .inr ⟨rfl, rfl, _, _, _, rfl, hr, hl⟩

theorem color_eq {t : RbNode α} {c : Color} {n : Nat} (h : RedBlack t c n) : t.color = c := by
  cases h <;> rfl

/-- A red tree, painted black, gains one level. -/
theorem setBlack_of_red {t : RbNode α} {n : Nat} (h : RedBlack t .red n) :
    RedBlack (t.setColor .black) .black (n + 1) := by
  cases h with
  | red hl hr => exact .black hl hr

/-- Height 0 leaves room for a red leaf and nothing else. -/
theorem height_zero {t : RbNode α} {c : Color} (h : RedBlack t c 0) :
    t = .nil ∨ ∃ a, t = .node .red .nil a .nil := by
  cases h with
  | nil => exact .inl rfl
  | red hl hr =>
      cases hl
      cases hr
      exact .inr ⟨_, rfl⟩

theorem ne_nil {t : RbNode α} {c : Color} {n : Nat} (h : RedBlack t c (n + 1)) : t ≠ .nil := by
  rintro rfl
  cases h

/-- A single node with a level to it is black. -/
theorem size_le_one {t : RbNode α} {c : Color} {n : Nat} (h : RedBlack t c (n + 1))
    (hsize : t.size ≤ 1) : n = 0 ∧ ∃ a, t = .node .black .nil a .nil := by
  cases h with
  | red hl hr =>
      cases hl with
      | black => simp only [size] at hsize; omega
  | @black l r a _ _ _ hl hr =>
      have hl' : l = .nil := inorder_eq_nil.mp (List.length_eq_zero_iff.mp (by
        simp only [size] at hsize; rw [length_inorder]; omega))
      have hr' : r = .nil := inorder_eq_nil.mp (List.length_eq_zero_iff.mp (by
        simp only [size] at hsize; rw [length_inorder]; omega))
      subst hl' hr'
      cases hl
      exact ⟨rfl, a, rfl⟩

end RedBlack

namespace Hole

variable {c₀ c : Color} {n₀ n : Nat} {P : List (Frame α)} {t : RbNode α}

theorem plug_redBlack (hP : Hole c₀ n₀ P c n) (ht : RedBlack t c n) :
    RedBlack (plug t P) c₀ n₀ := by
  induction hP generalizing t with
  | root => exact ht
  | red hs _ ih => exact ih (ht.branch_red hs)
  | black hs _ ih => exact ih (ht.branch_black hs)

/-- Where a red tree was, a tree of either colour fits, unless the hole is the whole. -/
theorem plug_of_red {k : Color} (hP : Hole c₀ n₀ P .red n) (ht : RedBlack t k n) :
    ∃ k', RedBlack (plug t P) k' n₀ ∧ (c₀ = .black → k' = .black) := by
  cases hP with
  | root => exact ⟨k, ht, nofun⟩
  | black hs hup => exact ⟨c₀, hup.plug_redBlack (ht.branch_black hs), id⟩

/-- Under a black root a hole that takes a red tree takes a black one as well. -/
theorem takes_black (hP : Hole .black n₀ P c n) : Hole .black n₀ P .black n := by
  cases hP with
  | root => exact .root
  | red hs hup => exact .red hs hup
  | black hs hup => exact .black hs hup

/-- Above a red parent: its parent is black. -/
theorem above_red {k k' : Color} {d d' : Dir} {p g : α} {s u : RbNode α} {up : List (Frame α)}
    (hP : Hole c₀ n₀ (⟨d, k, p, s⟩ :: ⟨d', k', g, u⟩ :: up) c n) (hk : k ≠ .black) :
    RedBlack s .black n ∧ k' = .black ∧ Hole c₀ n₀ up .black (n + 1) ∧
      RedBlack u u.color n := by
  cases hP with
  | black => exact absurd rfl hk
  | red hs hup =>
      cases hup with
      | black hu hup => exact ⟨hs, rfl, hup, hu.color_eq ▸ hu⟩

theorem sibling {f : Frame α} {up : List (Frame α)} (hP : Hole c₀ n₀ (f :: up) c n) :
    ∃ c', RedBlack f.sibling c' n := by
  cases hP with
  | red hs _ => exact ⟨_, hs⟩
  | black hs _ => exact ⟨_, hs⟩

theorem append {c₁ : Color} {n₁ : Nat} {Q : List (Frame α)} (hP : Hole c₀ n₀ P c₁ n₁)
    (hQ : Hole c₁ n₁ Q c n) : Hole c₀ n₀ (Q ++ P) c n := by
  induction hQ with
  | root => exact hP
  | red hs _ ih => exact .red hs ih
  | black hs _ ih => exact .black hs ih

theorem of_plug (h : RedBlack (plug t P) c₀ n₀) : ∃ c n, RedBlack t c n ∧ Hole c₀ n₀ P c n := by
  induction P generalizing t with
  | nil => exact ⟨c₀, n₀, h, .root⟩
  | cons f P ih =>
      obtain ⟨d, k, a, s⟩ := f
      obtain ⟨c, n, hb, hP⟩ := ih h
      rcases hb.of_branch with ⟨rfl, rfl, ht, hs⟩ | ⟨rfl, rfl, m, c₁, c₂, rfl, ht, hs⟩
      · exact ⟨.black, n, ht, .red hs hP⟩
      · exact ⟨c₁, m, ht, .black hs hP⟩

end Hole

end KernelLab.RbTree
