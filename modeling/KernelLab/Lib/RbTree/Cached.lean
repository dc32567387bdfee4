/-
# `KernelLab.Lib.RbTree.Cached` — a tree as a queue, with its leftmost node remembered

A queue by key is kept in a red-black tree.  The descent to the place of a new node goes
left where the new one comes strictly before, and right otherwise, so that equal keys
stay in the order they came in; if it never went right, the new node is the leftmost.
When the leftmost is taken out, its successor is remembered in its place.

    insert    descent, link, insertColor
    erase     rb_next if it is the leftmost, erase

Nodes are told apart by their value, which is the address of what they are embedded in.
What they are compared by is looked up elsewhere: it is not in the tree, and may change
while nothing is compared.

## What is proved

Whatever the comparison says, the tree stays balanced, a node is in it once, and the node
remembered is the first in order (`Shape.insert`, `Shape.erase`).  Where it is that of a
key, the in-order sequence is a list under `List.orderedInsert`, and stays sorted by the
key (`inorder_insert`, `sorted_orderedInsert`).
-/
import KernelLab.Lib.RbTree.Rebalance

namespace KernelLab.RbTree

open RbNode

variable {α : Type*}

/-- `rb_root` and the leftmost node, kept beside it. -/
structure Cached (α : Type*) where
  root : RbNode α
  leftmost : Option α

/-! ## The operations -/

section Insert

variable (less : α → α → Prop) [DecidableRel less]

/-- The path to the place of `x`, and whether it goes left all the way. -/
def descent (x : α) : RbNode α → List (Frame α) → Bool → List (Frame α) × Bool
  | .nil, P, leftmost => (P, leftmost)
  | .node c l a r, P, leftmost =>
      if less x a then descent x l (⟨.left, c, a, r⟩ :: P) leftmost
      else descent x r (⟨.right, c, a, l⟩ :: P) false

def Cached.insert (t : Cached α) (x : α) : Cached α :=
  let (P, leftmost) := descent less x t.root [] true
  ⟨insertColor (.node .red .nil x .nil) P, if leftmost then some x else t.leftmost⟩

end Insert

/-- The first ancestor that is reached from its left. -/
def nextAbove : List (Frame α) → Option α
  | [] => none
  | ⟨.left, _, a, _⟩ :: _ => some a
  | ⟨.right, _, _, _⟩ :: up => nextAbove up

/-- `rb_next` of the root of the focus. -/
def rbNext : RbNode α → List (Frame α) → Option α
  | .nil, _ => none
  | .node _ _ _ r, P =>
      match leftmost r [] with
      | some (_, y, _, _) => some y
      | none => nextAbove P

section Erase

variable [DecidableEq α]

def Cached.erase (t : Cached α) (x : α) : Cached α :=
  match locate (fun a => decide (a = x)) t.root [] with
  | some (f, P) =>
      ⟨RbTree.erase f P, if t.leftmost = some x then rbNext f P else t.leftmost⟩
  | none => t

/-- `rb_next` of a node, wherever it is. -/
def Cached.next (t : Cached α) (x : α) : Option α :=
  match locate (fun a => decide (a = x)) t.root [] with
  | some (f, P) => rbNext f P
  | none => none

end Erase

/-! ## The successor -/

theorem nextAbove_eq (P : List (Frame α)) : nextAbove P = (after P).head? := by
  induction P with
  | nil => rfl
  | cons f P ih =>
      obtain ⟨d, c, a, s⟩ := f
      cases d with
      | left => rfl
      | right => exact ih

theorem rbNext_eq (c : Color) (l : RbNode α) (a : α) (r : RbNode α) (P : List (Frame α)) :
    rbNext (.node c l a r) P = (r.inorder ++ after P).head? := by
  rw [rbNext]
  by_cases hr : r = .nil
  · subst hr
    exact nextAbove_eq P
  · obtain ⟨k, y, s, Q, h⟩ := leftmost_isSome hr []
    have hplug := leftmost_plug h
    have hbefore := leftmost_before h
    rw [h]
    rw [← show plug (.node k .nil y s) Q = r from hplug, inorder_plug, hbefore]
    simp [before]

/-! ## The queue -/

/-- A balanced tree of different nodes, with the first of them remembered. -/
structure Cached.Shape (t : Cached α) : Prop where
  balanced : ∃ n, RedBlack t.root .black n
  nodup : t.root.inorder.Nodup
  first : t.leftmost = t.root.inorder.head?

def Cached.empty : Cached α := ⟨.nil, none⟩

section Insert

variable (less : α → α → Prop) [DecidableRel less]

theorem descent_plug (x : α) (t : RbNode α) (P : List (Frame α)) (leftmost : Bool)
    (hleft : leftmost = true ↔ before P = []) :
    plug .nil (descent less x t P leftmost).1 = plug t P ∧
      ((descent less x t P leftmost).2 = true ↔
        before (descent less x t P leftmost).1 = []) := by
  induction t generalizing P leftmost with
  | nil => exact ⟨rfl, hleft⟩
  | node c l a r ihl ihr =>
      rw [descent]
      split
      · exact ihl _ _ hleft
      · exact ihr _ _ (by simp [before])

/-- Where the descent for `x` ends. -/
def Cached.place (t : Cached α) (x : α) : List (Frame α) := (descent less x t.root [] true).1

theorem Cached.place_plug (t : Cached α) (x : α) : plug .nil (t.place less x) = t.root :=
  (descent_plug less x t.root [] true (by simp [before])).1

theorem Cached.inorder_place (t : Cached α) (x : α) :
    t.root.inorder = before (t.place less x) ++ after (t.place less x) := by
  conv_lhs => rw [← t.place_plug less x]
  simp [inorder_plug]

theorem Cached.inorder_insert_place (t : Cached α) (x : α) :
    (t.insert less x).root.inorder =
      before (t.place less x) ++ x :: after (t.place less x) := by
  simp [Cached.insert, Cached.place, inorder_insertColor, inorder_plug]

theorem Cached.perm_insert (t : Cached α) (x : α) :
    (t.insert less x).root.inorder.Perm (x :: t.root.inorder) := by
  rw [t.inorder_insert_place less x, t.inorder_place less x]
  exact List.perm_middle

theorem Cached.Shape.insert {t : Cached α} (h : t.Shape) {x : α} (hx : x ∉ t.root.inorder) :
    (t.insert less x).Shape := by
  refine ⟨?_, ?_, ?_⟩
  · obtain ⟨n, hn⟩ := h.balanced
    rw [← t.place_plug less x] at hn
    obtain ⟨c, n', hnil, hole⟩ := Hole.of_plug hn
    cases hnil
    exact insertColor_redBlack (.red .nil .nil) hole
  · rw [(t.perm_insert less x).nodup_iff, List.nodup_cons]
    exact ⟨hx, h.nodup⟩
  · -- the leftmost is the new one if nothing is before it, and the old one otherwise
    have hleft : (descent less x t.root [] true).2 = true ↔ before (t.place less x) = [] :=
      (descent_plug less x t.root [] true (by simp [before])).2
    have hfirst := h.first
    rw [t.inorder_place less x] at hfirst
    rw [t.inorder_insert_place less x]
    cases hpre : before (t.place less x) with
    | nil => simp [Cached.insert, hleft.mpr hpre]
    | cons a pre =>
        have hfalse : (descent less x t.root [] true).2 = false := by
          rw [← Bool.not_eq_true, hleft, hpre]
          simp
        rw [hpre] at hfirst
        simp [Cached.insert, hfalse, hfirst]

end Insert

section Erase

variable [DecidableEq α] {x : α}

/-- The place of a node in the tree, and in the order. -/
theorem Cached.Shape.locate {t : Cached α} (h : t.Shape) (hx : x ∈ t.root.inorder) :
    ∃ c l r P, RbTree.locate (fun a => decide (a = x)) t.root [] = some (.node c l x r, P) ∧
      plug (.node c l x r) P = t.root ∧
      t.root.inorder = (before P ++ l.inorder) ++ x :: (r.inorder ++ after P) ∧
      x ∉ before P ++ l.inorder := by
  cases hloc : RbTree.locate (fun a => decide (a = x)) t.root [] with
  | none =>
      have := locate_eq_none.mp hloc x hx
      simp at this
  | some fP =>
      obtain ⟨f, P⟩ := fP
      obtain ⟨hplug, c, l, a, r, rfl, ha⟩ := locate_some hloc
      obtain rfl : a = x := by simpa using ha
      rw [plug_nil] at hplug
      have hold : t.root.inorder = (before P ++ l.inorder) ++ a :: (r.inorder ++ after P) := by
        rw [← hplug, inorder_plug]
        simp
      refine ⟨c, l, r, P, rfl, hplug, hold, fun hmem => ?_⟩
      have hnodup := h.nodup
      rw [hold, List.nodup_middle, List.nodup_cons] at hnodup
      exact hnodup.1 (List.mem_append_left _ hmem)

theorem Cached.Shape.inorder_erase {t : Cached α} (h : t.Shape) (hx : x ∈ t.root.inorder) :
    (t.erase x).root.inorder = t.root.inorder.erase x := by
  obtain ⟨c, l, r, P, hloc, -, hold, hnot⟩ := h.locate hx
  rw [hold, List.erase_append_right _ hnot, List.erase_cons_head]
  simp [Cached.erase, hloc, RbTree.inorder_erase]

theorem Cached.Shape.erase {t : Cached α} (h : t.Shape) (hx : x ∈ t.root.inorder) :
    (t.erase x).Shape := by
  obtain ⟨c, l, r, P, hloc, hplug, hold, hnot⟩ := h.locate hx
  have hnew := h.inorder_erase hx
  refine ⟨?_, ?_, ?_⟩
  · obtain ⟨n, hn⟩ := h.balanced
    rw [← hplug] at hn
    simp only [Cached.erase, hloc]
    exact erase_redBlack hn
  · rw [hnew]
    exact h.nodup.erase x
  · rw [hnew, hold, List.erase_append_right _ hnot, List.erase_cons_head]
    have hfirst := h.first
    rw [hold] at hfirst
    cases hpre : before P ++ l.inorder with
    | nil =>
        rw [hpre] at hfirst
        simp only [List.nil_append, List.head?_cons] at hfirst
        simp [Cached.erase, hloc, hfirst, rbNext_eq]
    | cons a pre =>
        rw [hpre] at hfirst hnot
        have hax : a ≠ x := by
          rintro rfl
          exact hnot List.mem_cons_self
        simp only [List.cons_append, List.head?_cons] at hfirst
        simp [Cached.erase, hloc, hfirst, hax]

/-- `rb_next` is the next in the order. -/
theorem Cached.Shape.next_eq {t : Cached α} (h : t.Shape) {pre post : List α}
    (hsplit : t.root.inorder = pre ++ x :: post) : t.next x = post.head? := by
  have hx : x ∈ t.root.inorder := by simp [hsplit]
  obtain ⟨c, l, r, P, hloc, -, hold, -⟩ := h.locate hx
  have hout : x ∉ pre ++ post := by
    have hnodup := h.nodup
    rw [hsplit] at hnodup
    exact (List.nodup_cons.mp (List.nodup_middle.mp hnodup)).1
  rw [List.mem_append, not_or] at hout
  -- `x` stands at one place only, so what is behind it is the same
  have hpost : post = r.inorder ++ after P := by
    have heq : pre ++ x :: post = (before P ++ l.inorder) ++ x :: (r.inorder ++ after P) := by
      rw [← hsplit, hold]
    exact ((List.append_cons_inj_of_notMem hout.1 hout.2).mp heq).2.2
  rw [Cached.next, hloc, hpost]
  exact rbNext_eq c l x r P

end Erase

/-! ## The order -/

section Sorted

variable {K : Type*} [LinearOrder K] {κ : α → K}

/-- In the order of the keys, equal ones in any order. -/
def SortedBy (κ : α → K) (l : List α) : Prop := l.Pairwise fun a b => κ a ≤ κ b

theorem SortedBy.congr {l : List α} (h : SortedBy κ l) {κ' : α → K}
    (heq : ∀ a ∈ l, κ' a = κ a) : SortedBy κ' l := by
  refine h.imp_of_mem fun {a b} ha hb hab => ?_
  rw [heq a ha, heq b hb]
  exact hab

/-- Before the first of a later key, and so behind the ones of the same key. -/
theorem orderedInsert_append {x : α} {l₁ l₂ : List α} (h₁ : ∀ a ∈ l₁, κ a ≤ κ x)
    (h₂ : ∀ a ∈ l₂, κ x < κ a) :
    (l₁ ++ l₂).orderedInsert (fun a b => κ a < κ b) x = l₁ ++ x :: l₂ := by
  induction l₁ with
  | nil =>
      cases l₂ with
      | nil => rfl
      | cons a l₂ => exact List.orderedInsert_cons_of_le _ l₂ (h₂ a List.mem_cons_self)
  | cons a l₁ ih =>
      have ha : ¬ κ x < κ a := not_lt.mpr (h₁ a List.mem_cons_self)
      rw [List.cons_append, List.orderedInsert_cons, if_neg ha,
        ih fun b hb => h₁ b (List.mem_cons_of_mem _ hb), List.cons_append]

theorem sorted_orderedInsert (x : α) {l : List α} (h : SortedBy κ l) :
    SortedBy κ (l.orderedInsert (fun a b => κ a < κ b) x) := by
  induction l with
  | nil => simp [SortedBy]
  | cons a l ih =>
      obtain ⟨ha, hl⟩ := List.pairwise_cons.mp h
      rw [List.orderedInsert_cons]
      split
      · rename_i hlt
        refine List.pairwise_cons.mpr ⟨?_, h⟩
        intro b hb
        rcases List.mem_cons.mp hb with rfl | hb
        · exact hlt.le
        · exact hlt.le.trans (ha b hb)
      · rename_i hge
        refine List.pairwise_cons.mpr ⟨?_, ih hl⟩
        intro b hb
        rcases (List.mem_orderedInsert _).mp hb with rfl | hb
        · exact not_lt.mp hge
        · exact ha b hb

variable {less : α → α → Prop} [DecidableRel less] {x : α}

/-- Where the descent ends, everything before is no later than `x` and everything behind
is later. -/
theorem descent_order {t : RbNode α} {P : List (Frame α)} (leftmost : Bool)
    (hless : ∀ a ∈ t.inorder, less x a ↔ κ x < κ a) (hsorted : SortedBy κ t.inorder)
    (hbefore : ∀ a ∈ before P, κ a ≤ κ x) (hafter : ∀ a ∈ after P, κ x < κ a) :
    (∀ a ∈ before (descent less x t P leftmost).1, κ a ≤ κ x) ∧
      ∀ a ∈ after (descent less x t P leftmost).1, κ x < κ a := by
  induction t generalizing P leftmost with
  | nil => exact ⟨hbefore, hafter⟩
  | node c l a r ihl ihr =>
      rw [inorder_node] at hless hsorted
      obtain ⟨hl, hr, hcross⟩ := List.pairwise_append.mp hsorted
      obtain ⟨har, hr⟩ := List.pairwise_cons.mp hr
      have hxa := hless a (by simp)
      rw [descent]
      by_cases hlt : less x a
      · rw [if_pos hlt]
        refine ihl leftmost (fun b hb => hless b (by simp [hb])) hl hbefore ?_
        intro b hb
        simp only [after, List.cons_append, List.mem_cons, List.mem_append] at hb
        rcases hb with rfl | hb | hb
        · exact hxa.mp hlt
        · exact (hxa.mp hlt).trans_le (har b hb)
        · exact hafter b hb
      · have hax : κ a ≤ κ x := not_lt.mp fun h => hlt (hxa.mpr h)
        rw [if_neg hlt]
        refine ihr false (fun b hb => hless b (by simp [hb])) hr ?_ hafter
        intro b hb
        simp only [before, List.mem_append, List.mem_singleton] at hb
        rcases hb with (hb | hb) | rfl
        · exact hbefore b hb
        · exact (hcross b hb a List.mem_cons_self).trans hax
        · exact hax

/-- The place the descent comes to is the one of the ordered insertion. -/
theorem Cached.inorder_insert {t : Cached α}
    (hless : ∀ a ∈ t.root.inorder, less x a ↔ κ x < κ a)
    (hsorted : SortedBy κ t.root.inorder) :
    (t.insert less x).root.inorder =
      t.root.inorder.orderedInsert (fun a b => κ a < κ b) x := by
  obtain ⟨hbefore, hafter⟩ := descent_order (P := []) true hless hsorted nofun nofun
  rw [t.inorder_insert_place less x, t.inorder_place less x]
  exact (orderedInsert_append hbefore hafter).symm

end Sorted

end KernelLab.RbTree
