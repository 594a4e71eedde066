import Mathlib.Data.List.Nodup
import Mathlib.Logic.Relation

/-!
Lists in which everything stands after its successors and nothing stands twice. Such a list
is closed under reachability, and nothing on it lies on a cycle: it is what a depth-first
search leaves behind.
-/

namespace Laghu.Postorder

open List

variable {α : Type} {next : α → List α} {order : List α} {x y : α}

/-- From an element to one of its successors. -/
def Edge (next : α → List α) (x y : α) : Prop := y ∈ next x

abbrev Reaches (next : α → List α) : α → α → Prop := Relation.ReflTransGen (Edge next)

/-- Reaches in one step or more. -/
abbrev Precedes (next : α → List α) : α → α → Prop := Relation.TransGen (Edge next)

inductive Listed (next : α → List α) : List α → Prop
  | nil : Listed next []
  | snoc {order : List α} {x : α} (hlisted : Listed next order) (hnew : x ∉ order)
      (hnext : ∀ y ∈ next x, y ∈ order) : Listed next (order ++ [x])

variable (h : Listed next order)
include h

theorem Listed.nodup : order.Nodup := by
  induction h with
  | nil => exact nodup_nil
  | snoc _ hnew _ ih =>
    rw [← concat_eq_append]
    exact ih.concat hnew

/-- The successors stand before it. -/
theorem Listed.before {earlier later : List α} (hsplit : order = earlier ++ x :: later)
    (hy : y ∈ next x) : y ∈ earlier := by
  induction h generalizing later with
  | nil =>
    have hlen := congrArg List.length hsplit
    simp at hlen
  | snoc hlisted hnew hnext ih =>
    rcases eq_nil_or_concat' later with hlater | ⟨middle, last, hlater⟩
    · subst hlater
      obtain ⟨hearlier, hl⟩ := append_inj' hsplit rfl
      rw [← hearlier]
      apply hnext
      rw [singleton_inj.mp hl]
      exact hy
    · subst hlater
      rw [← cons_append, ← append_assoc] at hsplit
      exact ih (append_inj' hsplit rfl).1

theorem Listed.closed (hx : x ∈ order) (hy : y ∈ next x) : y ∈ order := by
  obtain ⟨earlier, later, hsplit⟩ := append_of_mem hx
  rw [hsplit]
  exact mem_append_left _ (h.before hsplit hy)

theorem Listed.reaches (hx : x ∈ order) (hreach : Reaches next x y) : y ∈ order := by
  induction hreach with
  | refl => exact hx
  | tail _ hedge ih => exact h.closed ih hedge

theorem Listed.acyclic (hx : x ∈ order) : ¬ Precedes next x x := by
  induction h with
  | nil => cases hx
  | snoc hlisted hnew hnext ih =>
    rcases mem_append.mp hx with hx | hx
    · exact ih hx
    intro hcycle
    rw [mem_singleton.mp hx] at hcycle
    obtain ⟨y, hedge, hback⟩ := Relation.TransGen.head'_iff.mp hcycle
    exact hnew (hlisted.reaches (hnext y hedge) hback)

end Laghu.Postorder
