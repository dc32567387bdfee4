/-
# `KernelLab.Lib.RbTree.Rebalance` — insertion and erasure from the node up

Bottom-up rebalancing of an intrusive red-black tree.  `insertColor` starts at a node
just linked in red, `erase` takes the node at a place out and hands what is left,
where a black node is gone, to `eraseColor`.  The cases carry the numbers they have
in the kernel's `lib/rbtree.c`.

## What is proved

    (insertColor t P).inorder = (plug t P).inorder              `inorder_insertColor`
    (erase f P).inorder       = before P ++ l ++ r ++ after P    `inorder_erase`

and both keep a tree with a black root `RedBlack` (`insertColor_redBlack`,
`erase_redBlack`).  `erase_cases` says more: the erasure is local to the focus, unless
the focus lost a level, in which case it ends as `eraseColor` of a shorter focus.
-/
import KernelLab.Lib.RbTree.Basic

namespace KernelLab.RbTree

open RbNode

variable {α : Type*}

/-! ## Insertion -/

/-- From a red node upwards, until no red node has a red parent. -/
def insertColor (t : RbNode α) : List (Frame α) → RbNode α
  | [] => t.setColor .black
  | [f] => plug t [f]
  | ⟨d, c, p, s⟩ :: ⟨d', c', g, u⟩ :: up =>
      if c = .black then plug t (⟨d, c, p, s⟩ :: ⟨d', c', g, u⟩ :: up)
      else if u.color = .red then
        -- case 1: colour flips, and the grandparent is the next red node
        insertColor (.branch d' .red (.branch d .black t p s) g (u.setColor .black)) up
      else if d = d' then
        -- case 3: the parent takes the grandparent's place and colour
        plug (.branch d' c' t p (.branch d' .red s g u)) up
      else
        -- case 2: the node is rotated over its parent first
        match t.turn d' with
        | .nil => plug t (⟨d, c, p, s⟩ :: ⟨d', c', g, u⟩ :: up)
        | .node _ near x far =>
            plug (.branch d' c' (.branch d' .red s p near) x (.branch d' .red far g u)) up

theorem inorder_insertColor (t : RbNode α) (P : List (Frame α)) :
    (insertColor t P).inorder = (plug t P).inorder := by
  fun_induction insertColor t P with
  | case1 t => simp
  | case2 t f => rfl
  | case3 => rfl
  | case4 t d c p s d' c' g u up hc hu ih =>
      rw [ih]
      apply inorder_plug_congr
      cases d <;> cases d' <;> simp [branch]
  | case5 t c p s d' c' g u up hc hu =>
      apply inorder_plug_congr
      cases d' <;> simp [branch]
  | case6 => rfl
  | case7 t d c p s d' c' g u up hc hu hd k near x far ht =>
      cases t using branchCases d' with
      | nil => cases ht
      | branch k' near' x' far' =>
          rw [turn_branch] at ht
          cases ht
          apply inorder_plug_congr
          cases d <;> cases d' <;> first | exact absurd rfl hd | simp [branch]

/-- A red node hung where a black tree of its height was missing leaves a balanced
tree behind. -/
theorem insertColor_redBlack {n₀ n : Nat} {t : RbNode α} {P : List (Frame α)}
    (ht : RedBlack t .red n) (hP : Hole .black n₀ P .black n) :
    ∃ m, RedBlack (insertColor t P) .black m := by
  fun_induction insertColor t P generalizing n with
  | case1 t => exact ⟨n + 1, ht.setBlack_of_red⟩
  | case2 t f =>
      cases hP with
      | red _ hup => cases hup
      | black hs hup => exact ⟨n₀, (Hole.black hs hup).plug_redBlack ht⟩
  | case3 t d p s d' c' g u up =>
      cases hP with
      | black hs hup => exact ⟨n₀, (Hole.black hs hup).plug_redBlack ht⟩
  | case4 t d c p s d' c' g u up hc hu ih =>
      obtain ⟨hs, rfl, hup, hu'⟩ := hP.above_red hc
      rw [hu] at hu'
      exact ih (.branch_red (ht.branch_black hs) hu'.setBlack_of_red) hup
  | case5 t c p s d' c' g u up hc hu =>
      obtain ⟨hs, rfl, hup, hu'⟩ := hP.above_red hc
      rw [color_black hu] at hu'
      exact ⟨n₀, hup.plug_redBlack (ht.branch_black (hs.branch_red hu'))⟩
  | case6 t d c p s d' c' g u up hc hu hd hnil =>
      cases t using branchCases d' with
      | nil => cases ht
      | branch => simp at hnil
  | case7 t d c p s d' c' g u up hc hu hd k near x far hk =>
      obtain ⟨hs, rfl, hup, hu'⟩ := hP.above_red hc
      rw [color_black hu] at hu'
      cases t using branchCases d' with
      | nil => cases ht
      | branch k' near' x' far' =>
          rw [turn_branch] at hk
          cases hk
          rcases ht.of_branch with ⟨-, -, hnear, hfar⟩ | ⟨-, h, -⟩
          · exact ⟨n₀, hup.plug_redBlack
              ((hs.branch_red hnear).branch_black (hfar.branch_red hu'))⟩
          · cases h

/-! ## Erasure -/

/-- Neither child of the root is red. -/
def blackKids : RbNode α → Bool
  | .nil => true
  | .node _ l _ r => l.color = .black && r.color = .black

/-- A parent of colour `c` whose child `t` on side `d` is one level short, and whose
other child `s` is black. -/
def repair (d : Dir) (c : Color) (t : RbNode α) (p : α) (s : RbNode α) : RbNode α :=
  match s.turn d with
  | .nil => .branch d c t p .nil
  | .node _ near x far =>
      if far.color = .red then
        -- case 4: the sibling takes the parent's place and colour
        .branch d c (.branch d .black t p near) x (far.setColor .black)
      else
        match near.turn d with
        | .node .red nn y nf =>
            -- case 3: the sibling's near child is rotated over it first
            .branch d c (.branch d .black t p nn) y (.branch d .black nf x far)
        | _ =>
            -- case 2: the sibling turns red
            .branch d .black t p (.branch d .red near x far)

/-- From a subtree one level short upwards, until the level is made good. -/
def eraseColor (t : RbNode α) : List (Frame α) → RbNode α
  | [] => t
  | ⟨d, c, p, s⟩ :: up =>
      match s.turn d with
      | .node .red near x far =>
          -- case 1: the sibling takes the parent's place and colour, the parent turns red
          plug (.branch d c (repair d .red t p near) x far) up
      | _ =>
          if c = .black ∧ blackKids s then eraseColor (repair d c t p s) up
          else plug (repair d c t p s) up

/-- The leftmost node of a subtree: its colour, value, right child and path. -/
def leftmost : RbNode α → List (Frame α) → Option (Color × α × RbNode α × List (Frame α))
  | .nil, _ => none
  | .node c .nil a r, Q => some (c, a, r, Q)
  | .node c l a r, Q => leftmost l (⟨.left, c, a, r⟩ :: Q)

/-- A node of colour `k` leaves its place to its only child, painted `k'`; without a
child, a black node leaves its place one level short. -/
def promote (k k' : Color) (s : RbNode α) (P : List (Frame α)) : RbNode α :=
  match s with
  | .nil => if k = .black then eraseColor .nil P else plug .nil P
  | s => plug (s.setColor k') P

/-- Takes the root of the focus out of the tree. -/
def erase (f : RbNode α) (P : List (Frame α)) : RbNode α :=
  match f with
  | .nil => plug .nil P
  | .node c .nil _ r => promote c c r P
  | .node c l _ .nil => plug (l.setColor c) P
  | .node c l _ r =>
      -- the successor takes the node's place and colour, its child the successor's place
      match leftmost r [] with
      | none => plug l P
      | some (k, y, s, Q) => promote k .black s (Q ++ ⟨.right, c, y, l⟩ :: P)

/-! ### Order -/

theorem inorder_repair (d : Dir) (c c' : Color) (t : RbNode α) (p : α) (s : RbNode α) :
    (repair d c t p s).inorder = (branch d c' t p s).inorder := by
  unfold repair
  cases s using branchCases d with
  | nil => cases d <;> simp [branch]
  | branch k near x far =>
      simp only [turn_branch]
      split
      · cases d <;> simp [branch]
      · cases near using branchCases d with
        | nil => cases d <;> simp [branch]
        | branch k' nn y nf =>
            rw [turn_branch]
            cases k' <;> cases d <;> simp [branch]

theorem inorder_eraseColor (t : RbNode α) (P : List (Frame α)) :
    (eraseColor t P).inorder = (plug t P).inorder := by
  fun_induction eraseColor t P with
  | case1 => rfl
  | case2 t d c p s up near x far hs =>
      apply inorder_plug_congr
      cases s using branchCases d with
      | nil => cases hs
      | branch k near' x' far' =>
          rw [turn_branch] at hs
          cases hs
          have h := inorder_repair d .red .red t p near
          cases d <;> simp [branch] at h ⊢ <;> simp [h]
  | case3 t d c p s up hs hc ih =>
      rw [ih]
      exact inorder_plug_congr (inorder_repair d c c t p s) up
  | case4 t d c p s up hs hc => exact inorder_plug_congr (inorder_repair d c c t p s) up

theorem inorder_promote (k k' : Color) (s : RbNode α) (P : List (Frame α)) :
    (promote k k' s P).inorder = before P ++ s.inorder ++ after P := by
  cases s with
  | nil =>
      simp only [promote]
      split <;> simp [inorder_eraseColor, inorder_plug]
  | node c l a r => simp [promote, inorder_plug]

theorem leftmost_plug {t : RbNode α} {Q : List (Frame α)} {k : Color} {y : α} {s : RbNode α}
    {Q' : List (Frame α)} (h : leftmost t Q = some (k, y, s, Q')) :
    plug (.node k .nil y s) Q' = plug t Q := by
  fun_induction leftmost t Q with
  | case1 => cases h
  | case2 => cases h; rfl
  | case3 Q c l a r hl ih => exact ih h

theorem leftmost_before {t : RbNode α} {Q : List (Frame α)} {k : Color} {y : α} {s : RbNode α}
    {Q' : List (Frame α)} (h : leftmost t Q = some (k, y, s, Q')) : before Q' = before Q := by
  fun_induction leftmost t Q with
  | case1 => cases h
  | case2 => cases h; rfl
  | case3 Q c l a r hl ih => exact ih h

theorem leftmost_isSome {t : RbNode α} (h : t ≠ .nil) (Q : List (Frame α)) :
    ∃ k y s Q', leftmost t Q = some (k, y, s, Q') := by
  fun_induction leftmost t Q with
  | case1 => exact absurd rfl h
  | case2 c a r Q => exact ⟨c, a, r, Q, rfl⟩
  | case3 Q c l a r hl ih => exact ih hl

/-- The erasure of a node with two children, by its successor. -/
theorem erase_two {c : Color} {l : RbNode α} {a : α} {r : RbNode α} (hl : l ≠ .nil)
    (hr : r ≠ .nil) :
    ∃ k y s Q, plug (.node k .nil y s) Q = r ∧ before Q = [] ∧
      ∀ P, erase (.node c l a r) P = promote k .black s (Q ++ ⟨.right, c, y, l⟩ :: P) := by
  obtain ⟨k, y, s, Q, h⟩ := leftmost_isSome hr []
  refine ⟨k, y, s, Q, leftmost_plug h, leftmost_before h, fun P => ?_⟩
  rw [erase]
  · simp only [h]
  · exact hl
  · exact hr

theorem inorder_erase (c : Color) (l : RbNode α) (a : α) (r : RbNode α) (P : List (Frame α)) :
    (erase (.node c l a r) P).inorder = before P ++ (l.inorder ++ r.inorder) ++ after P := by
  by_cases hl : l = .nil
  · subst hl
    simp [erase, inorder_promote]
  by_cases hr : r = .nil
  · subst hr
    rw [erase]
    · simp [inorder_plug]
    · exact hl
  obtain ⟨k, y, s, Q, rfl, hQ, he⟩ := erase_two hl hr
  rw [he P, inorder_promote, before_append, after_append, inorder_plug, hQ]
  simp [before, after]

/-! ### Balance -/

/-- The three ways of `repair`, where the sibling is black and of the right height. -/
theorem repair_cases {d : Dir} {c : Color} {t : RbNode α} {p : α} {s : RbNode α} {n : Nat}
    (hs : RedBlack s .black (n + 1)) :
    (∃ near x far, s = branch d .black near x far ∧ blackKids s = true ∧
      RedBlack near .black n ∧ RedBlack far .black n ∧
      repair d c t p s = branch d .black t p (branch d .red near x far)) ∨
    (∃ near x far k, s = branch d .black near x far ∧ blackKids s = false ∧
      RedBlack near k n ∧ RedBlack far .red n ∧
      repair d c t p s = branch d c (branch d .black t p near) x (far.setColor .black)) ∨
    (∃ nn y nf x far, s = branch d .black (branch d .red nn y nf) x far ∧ blackKids s = false ∧
      RedBlack nn .black n ∧ RedBlack nf .black n ∧ RedBlack far .black n ∧
      repair d c t p s = branch d c (branch d .black t p nn) y (branch d .black nf x far)) := by
  cases s using branchCases d with
  | nil => cases hs
  | branch k near x far =>
      rcases hs.of_branch with ⟨-, h, -⟩ | ⟨rfl, -, m, c₁, c₂, hm, hnear, hfar⟩
      · cases h
      obtain rfl : n = m := by omega
      have hkids : blackKids (branch d .black near x far) =
          (decide (c₁ = .black) && decide (c₂ = .black)) := by
        cases d <;> simp [branch, blackKids, hnear.color_eq, hfar.color_eq, Bool.and_comm]
      rw [hkids]
      cases c₂ with
      | red =>
          refine .inr (.inl ⟨near, x, far, c₁, rfl, by simp, hnear, hfar, ?_⟩)
          simp [repair, hfar.color_eq]
      | black =>
          cases c₁ with
          | black =>
              refine .inl ⟨near, x, far, rfl, rfl, hnear, hfar, ?_⟩
              cases near using branchCases d with
              | nil => simp [repair, hfar.color_eq]
              | branch k nn y nf =>
                  obtain rfl : k = .black := by simpa using hnear.color_eq
                  simp [repair, hfar.color_eq]
          | red =>
              cases near using branchCases d with
              | nil => cases hnear
              | branch k nn y nf =>
                  rcases hnear.of_branch with ⟨rfl, -, hnn, hnf⟩ | ⟨-, h, -⟩
                  · refine .inr (.inr ⟨nn, y, nf, x, far, rfl, rfl, hnn, hnf, hfar, ?_⟩)
                    simp [repair, hfar.color_eq]
                  · cases h

theorem repair_ne_nil {d : Dir} {c : Color} {t : RbNode α} {p : α} {s : RbNode α} {n : Nat}
    (hs : RedBlack s .black (n + 1)) : repair d c t p s ≠ .nil := by
  rcases repair_cases hs with ⟨_, _, _, -, -, -, -, h⟩ | ⟨_, _, _, _, -, -, -, -, h⟩ |
    ⟨_, _, _, _, _, -, -, -, -, -, h⟩
  · exact h ▸ branch_ne_nil _ _ _ _ _
  · exact h ▸ branch_ne_nil _ _ _ _ _
  · exact h ▸ branch_ne_nil _ _ _ _ _

/-- Under a red parent the missing level is always made good. -/
theorem repair_red {d : Dir} {t : RbNode α} {p : α} {s : RbNode α} {n : Nat}
    (ht : RedBlack t .black n) (hs : RedBlack s .black (n + 1)) :
    ∃ k, RedBlack (repair d .red t p s) k (n + 1) := by
  rcases repair_cases hs with ⟨near, x, far, -, -, hnear, hfar, h⟩ |
    ⟨near, x, far, k, -, -, hnear, hfar, h⟩ | ⟨nn, y, nf, x, far, -, -, hnn, hnf, hfar, h⟩
  · exact ⟨_, h ▸ ht.branch_black (hnear.branch_red hfar)⟩
  · exact ⟨_, h ▸ (ht.branch_black hnear).branch_red hfar.setBlack_of_red⟩
  · exact ⟨_, h ▸ (ht.branch_black hnn).branch_red (hnf.branch_black hfar)⟩

/-- Under a black parent it is, unless neither child of the sibling is red. -/
theorem repair_black {d : Dir} {t : RbNode α} {p : α} {s : RbNode α} {n : Nat}
    (ht : RedBlack t .black n) (hs : RedBlack s .black (n + 1)) :
    RedBlack (repair d .black t p s) .black (if blackKids s then n + 1 else n + 2) := by
  rcases repair_cases hs with ⟨near, x, far, -, hk, hnear, hfar, h⟩ |
    ⟨near, x, far, k, -, hk, hnear, hfar, h⟩ | ⟨nn, y, nf, x, far, -, hk, hnn, hnf, hfar, h⟩
  · rw [h, hk]
    exact ht.branch_black (hnear.branch_red hfar)
  · rw [h, hk]
    exact (ht.branch_black hnear).branch_black hfar.setBlack_of_red
  · rw [h, hk]
    exact (ht.branch_black hnn).branch_black (hnf.branch_black hfar)

theorem eraseColor_red_sibling (d : Dir) (k : Color) (t : RbNode α) (p : α)
    (near : RbNode α) (x : α) (far : RbNode α) (P : List (Frame α)) :
    eraseColor t (⟨d, k, p, branch d .red near x far⟩ :: P) =
      plug (branch d k (repair d .red t p near) x far) P := by
  simp only [eraseColor, turn_branch]

theorem eraseColor_black_sibling {s : RbNode α} (hs : s.color = .black) (d : Dir) (k : Color)
    (t : RbNode α) (p : α) (P : List (Frame α)) :
    eraseColor t (⟨d, k, p, s⟩ :: P) =
      if k = .black ∧ blackKids s then eraseColor (repair d k t p s) P
      else plug (repair d k t p s) P := by
  cases s using branchCases d with
  | nil => rw [eraseColor, turn_nil]
  | branch c near x far =>
      rw [color_branch] at hs
      subst hs
      simp only [eraseColor, turn_branch]

/-- What `eraseColor` does in one frame, for every subtree of the missing height. -/
inductive EraseFrame (c₀ : Color) (n₀ n : Nat) (d : Dir) (k : Color) (p : α) (s : RbNode α)
    (up : List (Frame α)) : Prop
  /-- the level is made good, from a black sibling -/
  | settled : RedBlack s .black (n + 1) →
      (k = .red ∧ Hole c₀ n₀ up .red (n + 1) ∨
        k = .black ∧ blackKids s = false ∧ Hole c₀ n₀ up .black (n + 2)) →
      (∀ t P, eraseColor t (⟨d, k, p, s⟩ :: P) = plug (repair d k t p s) P) →
      EraseFrame c₀ n₀ n d k p s up
  /-- the level is made good, below a red sibling -/
  | rotated (near : RbNode α) (x : α) (far : RbNode α) : s = branch d .red near x far →
      RedBlack near .black (n + 1) → RedBlack far .black (n + 1) →
      Hole c₀ n₀ up .black (n + 2) →
      (∀ t P, eraseColor t (⟨d, k, p, s⟩ :: P) =
        plug (branch d .black (repair d .red t p near) x far) P) →
      EraseFrame c₀ n₀ n d k p s up
  /-- the whole frame is one level short now -/
  | short : RedBlack s .black (n + 1) → blackKids s = true → Hole c₀ n₀ up .black (n + 2) →
      (∀ t P, eraseColor t (⟨d, k, p, s⟩ :: P) = eraseColor (repair d .black t p s) P) →
      EraseFrame c₀ n₀ n d k p s up

theorem eraseColor_frame {c₀ c k : Color} {n₀ n : Nat} {d : Dir} {p : α} {s : RbNode α}
    {up : List (Frame α)} (hP : Hole c₀ n₀ (⟨d, k, p, s⟩ :: up) c (n + 1)) :
    EraseFrame c₀ n₀ n d k p s up := by
  cases hP with
  | red hs hup =>
      refine .settled hs (.inl ⟨rfl, hup⟩) fun t P => ?_
      rw [eraseColor_black_sibling hs.color_eq, if_neg (by simp)]
  | @black _ _ _ _ _ c' _ hs hup =>
      cases c' with
      | red =>
          cases s using branchCases d with
          | nil => cases hs
          | branch k' near x far =>
              rcases hs.of_branch with ⟨rfl, -, hnear, hfar⟩ | ⟨-, h, -⟩
              · refine .rotated near x far rfl hnear hfar hup fun t P => ?_
                exact eraseColor_red_sibling d .black t p near x far P
              · cases h
      | black =>
          cases hk : blackKids s with
          | false =>
              refine .settled hs (.inr ⟨rfl, hk, hup⟩) fun t P => ?_
              rw [eraseColor_black_sibling hs.color_eq, if_neg (by simp [hk])]
          | true =>
              refine .short hs hk hup fun t P => ?_
              rw [eraseColor_black_sibling hs.color_eq, if_pos ⟨rfl, hk⟩]

/-- What `eraseColor` makes of the inner part of a path is a subtree of the height that
was there, and the rest of the path is as it was; or it is one level short, and goes
on from there. -/
theorem eraseColor_append {c₀ c : Color} {n₀ n : Nat} {Q : List (Frame α)} {t : RbNode α}
    (hQ : Hole c₀ n₀ Q c (n + 1)) (ht : RedBlack t .black n) (P : List (Frame α)) :
    (∃ k, RedBlack (eraseColor t Q) k n₀ ∧ (c₀ = .black → k = .black) ∧
      eraseColor t (Q ++ P) = plug (eraseColor t Q) P) ∨
    (∃ m, n₀ = m + 1 ∧ RedBlack (eraseColor t Q) .black m ∧
      eraseColor t (Q ++ P) = eraseColor (eraseColor t Q) P) := by
  induction Q generalizing t c n with
  | nil =>
      cases hQ
      exact .inr ⟨n, rfl, ht, rfl⟩
  | cons f Q ih =>
      obtain ⟨d, k, p, s⟩ := f
      rw [List.cons_append]
      cases eraseColor_frame hQ with
      | settled hs hk h =>
          refine .inl ?_
          rw [h, h, plug_append]
          rcases hk with ⟨rfl, hup⟩ | ⟨rfl, hkids, hup⟩
          · obtain ⟨k', hg⟩ := repair_red (d := d) (p := p) ht hs
            obtain ⟨k'', hb, hk⟩ := hup.plug_of_red hg
            exact ⟨k'', hb, hk, rfl⟩
          · have hg := repair_black (d := d) (p := p) ht hs
            rw [hkids] at hg
            exact ⟨c₀, hup.plug_redBlack hg, id, rfl⟩
      | rotated near x far _ hnear hfar hup h =>
          rw [h, h, plug_append]
          obtain ⟨k', hg⟩ := repair_red (d := d) (p := p) ht hnear
          exact .inl ⟨c₀, hup.plug_redBlack (hg.branch_black hfar), id, rfl⟩
      | short hs hkids hup h =>
          rw [h, h]
          have hg := repair_black (d := d) (p := p) ht hs
          rw [hkids] at hg
          exact ih hup hg

theorem promote_cases {c₀ c k k' : Color} {n₀ n : Nat} {Q : List (Frame α)} {y : α} {s : RbNode α}
    (hs : RedBlack (.node k .nil y s) c n) (hQ : Hole c₀ n₀ Q c n)
    (hk : k = .black → k' = .black) (P : List (Frame α)) :
    (∃ k₁, RedBlack (promote k k' s Q) k₁ n₀ ∧ (c₀ = .black → k₁ = .black) ∧
      promote k k' s (Q ++ P) = plug (promote k k' s Q) P) ∨
    (∃ m, n₀ = m + 1 ∧ RedBlack (promote k k' s Q) .black m ∧
      promote k k' s (Q ++ P) = eraseColor (promote k k' s Q) P) := by
  cases hs with
  | red hl hr =>
      cases hl
      cases hr
      obtain ⟨k₁, hb, h⟩ := hQ.plug_of_red .nil
      exact .inl ⟨k₁, hb, h, plug_append _ _ _⟩
  | black hl hr =>
      cases hl
      rcases hr.height_zero with rfl | ⟨x, rfl⟩
      · exact eraseColor_append hQ .nil P
      · obtain rfl := hk rfl
        exact .inl ⟨c₀, hQ.plug_redBlack (.black .nil .nil), id, plug_append _ _ _⟩

/-- Erasing is local to the focus, unless the focus loses a level. -/
theorem erase_cases {c k : Color} {l : RbNode α} {a : α} {r : RbNode α} {n : Nat}
    (hf : RedBlack (.node c l a r) k n) (P : List (Frame α)) :
    (∃ k', RedBlack (erase (.node c l a r) []) k' n ∧ (k = .black → k' = .black) ∧
      erase (.node c l a r) P = plug (erase (.node c l a r) []) P) ∨
    (∃ m, n = m + 1 ∧ RedBlack (erase (.node c l a r) []) .black m ∧
      erase (.node c l a r) P = eraseColor (erase (.node c l a r) []) P) := by
  by_cases hl : l = .nil
  · subst hl
    exact promote_cases hf .root id P
  by_cases hr : r = .nil
  · subst hr
    have h (P : List (Frame α)) : erase (.node c l a .nil) P = plug (l.setColor c) P := by
      rw [erase]
      exact hl
    rw [h [], h P]
    -- a single child is a red leaf, so the node is black
    cases hf with
    | red hl' hr' =>
        cases hr'
        cases hl'
        exact absurd rfl hl
    | black hl' hr' =>
        cases hr'
        rcases hl'.height_zero with rfl | ⟨x, rfl⟩
        · exact absurd rfl hl
        · exact .inl ⟨.black, .black .nil .nil, id, rfl⟩
  obtain ⟨κ, y, s, Q, rfl, -, he⟩ := erase_two (c := c) (a := a) hl hr
  -- the successor's place, inside the focus
  obtain ⟨c₁, n₁, c', n', hroot, hs, hQ⟩ : ∃ c₁ n₁ c' n', Hole k n [⟨.right, c, y, l⟩] c₁ n₁ ∧
      RedBlack (.node κ .nil y s) c' n' ∧ Hole c₁ n₁ Q c' n' := by
    cases hf with
    | red hl' hr' =>
        obtain ⟨c', n', hs, hQ⟩ := Hole.of_plug hr'
        exact ⟨_, _, c', n', .red hl' .root, hs, hQ⟩
    | black hl' hr' =>
        obtain ⟨c', n', hs, hQ⟩ := Hole.of_plug hr'
        exact ⟨_, _, c', n', .black hl' .root, hs, hQ⟩
  have hblack : κ = .black → Color.black = .black := fun _ => rfl
  have h := promote_cases hs (hroot.append hQ) hblack P
  rw [he [], he P]
  simpa using h

theorem eraseColor_redBlack {c : Color} {n₀ n : Nat} {P : List (Frame α)} {t : RbNode α}
    (hP : Hole .black n₀ P c (n + 1)) (ht : RedBlack t .black n) :
    ∃ m, RedBlack (eraseColor t P) .black m := by
  rcases eraseColor_append hP ht [] with ⟨k, hb, hk, -⟩ | ⟨m, -, hb, -⟩
  · obtain rfl := hk rfl
    exact ⟨n₀, hb⟩
  · exact ⟨m, hb⟩

theorem erase_redBlack {n₀ : Nat} {c : Color} {l : RbNode α} {a : α} {r : RbNode α}
    {P : List (Frame α)} (h : RedBlack (plug (.node c l a r) P) .black n₀) :
    ∃ m, RedBlack (erase (.node c l a r) P) .black m := by
  obtain ⟨k, n, hf, hP⟩ := Hole.of_plug h
  rcases erase_cases hf P with ⟨k', hb, hk, he⟩ | ⟨m, rfl, hb, he⟩
  · rw [he]
    cases k with
    | red =>
        obtain ⟨k₁, hb', hk₁⟩ := hP.plug_of_red hb
        obtain rfl := hk₁ rfl
        exact ⟨n₀, hb'⟩
    | black =>
        obtain rfl := hk rfl
        exact ⟨n₀, hP.plug_redBlack hb⟩
  · rw [he]
    exact eraseColor_redBlack hP hb

end KernelLab.RbTree
