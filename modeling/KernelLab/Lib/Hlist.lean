/-
# `KernelLab.Lib.Hlist` — singly linked chains through a `next` field

A chain is a first pointer and, for every node, the pointer to the node behind it.
`Chain next p l` says that following the pointers from `p` passes the nodes `l` in order
and comes to an end.

Putting a node in front of a chain writes one `next` field.  It is the field of the new
node, so every chain that does not pass that node is still what it was
(`Chain.update`), and this is all that keeps several chains in one memory apart.

`walk` is the search loop: the first node that satisfies a test.  It ends on a chain,
and with what `find?` finds in the list.
-/
import KernelLab.Lib.Loop

namespace KernelLab.Hlist

open KernelLab.Loop

inductive Chain (next : Nat → Option Nat) : Option Nat → List Nat → Prop
  | nil : Chain next none []
  | cons {a : Nat} {l : List Nat} : Chain next (next a) l → Chain next (some a) (a :: l)

/-- Writing the field of a node that is not on the chain. -/
theorem Chain.update {next : Nat → Option Nat} {p : Option Nat} {l : List Nat}
    (h : Chain next p l) {a : Nat} (ha : a ∉ l) (q : Option Nat) :
    Chain (Function.update next a q) p l := by
  induction h with
  | nil => exact .nil
  | @cons b l _ ih =>
      obtain ⟨hab, hl⟩ := List.ne_and_not_mem_of_not_mem_cons ha
      refine .cons ?_
      rw [Function.update_of_ne (Ne.symm hab)]
      exact ih hl

/-- A new node in front. -/
theorem Chain.push {next : Nat → Option Nat} {p : Option Nat} {l : List Nat}
    (h : Chain next p l) {a : Nat} (ha : a ∉ l) :
    Chain (Function.update next a p) (some a) (a :: l) := by
  refine .cons ?_
  rw [Function.update_self]
  exact h.update ha p

/-- One node of a search: the test may fail to come to an answer. -/
def walk (next : Nat → Option Nat) (test : Nat → Option Bool) :
    Option Nat → Step (Option Nat) (Option (Option Nat))
  | none => .exit (some none)
  | some a =>
      match test a with
      | none => .exit none
      | some true => .exit (some (some a))
      | some false => .next (next a)

theorem walk_ends {next : Nat → Option Nat} {test : Nat → Option Bool} {good : Nat → Bool}
    {p : Option Nat} {l : List Nat} (h : Chain next p l)
    (htest : ∀ a ∈ l, test a = some (good a)) :
    Ends (walk next test) p (some (l.find? good)) := by
  induction h with
  | nil => exact .of_exit rfl
  | @cons a l _ ih =>
      have ha := htest a List.mem_cons_self
      cases hg : good a with
      | true =>
          rw [List.find?_cons_of_pos hg]
          exact .of_exit (by simp only [walk, ha, hg])
      | false =>
          rw [List.find?_cons_of_neg (by simp [hg])]
          have hbody : walk next test (some a) = .next (next a) := by simp only [walk, ha, hg]
          exact .of_next hbody (ih fun b hb => htest b (List.mem_cons_of_mem _ hb))

end KernelLab.Hlist
