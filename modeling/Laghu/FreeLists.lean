import Mathlib.Data.List.Range

/-!
Singly linked lists threaded through numbered cells. A cell holds the number of
the next one, the last cell holds an end mark, and only the number of the first
cell is stored outside. `next` is partial: a cell that does not exist has no
link, so a list that follows it never leaves the storage.
-/

namespace Laghu.FreeLists

open List Option

variable {α : Type*} {next next' : α → Option α} {stop head i : α} {l : List α}

/-- Following the links from `head` visits the cells of the list in order and
then meets the end mark. -/
def Follows (next : α → Option α) (stop : α) : α → List α → Prop
  | head, [] => head = stop
  | head, i :: rest => head = i ∧ i ≠ stop ∧ ∃ j, next i = some j ∧ Follows next stop j rest

section

variable (h : Follows next stop head l)
include h

theorem Follows.congr (hsame : ∀ i ∈ l, next' i = next i) : Follows next' stop head l := by
  induction l generalizing head with
  | nil => exact h
  | cons i rest ih =>
    obtain ⟨hhead, hi, j, hj, hr⟩ := h
    refine ⟨hhead, hi, j, ?_, ih hr (fun k hk => hsame k (mem_cons_of_mem _ hk))⟩
    rw [hsame i mem_cons_self, hj]

theorem Follows.head_eq_stop : head = stop ↔ l = [] := by
  cases l with
  | nil => exact iff_of_true h rfl
  | cons i rest =>
    obtain ⟨hhead, hi, _⟩ := h
    rw [hhead]
    exact iff_of_false hi (cons_ne_nil _ _)

/-- Taking the first cell leaves the list that its link starts. -/
theorem Follows.pop (hhead : head ≠ stop) :
    ∃ j rest, l = head :: rest ∧ next head = some j ∧ Follows next stop j rest := by
  cases l with
  | nil => exact absurd h hhead
  | cons i rest =>
    obtain ⟨rfl, _, j, hj, hr⟩ := h
    exact ⟨j, rest, rfl, hj, hr⟩

/-- Linking a new cell before the first one. -/
theorem Follows.push (hi : i ≠ stop) (hl : next' i = some head)
    (hsame : ∀ j ∈ l, next' j = next j) : Follows next' stop i (i :: l) :=
  ⟨rfl, hi, head, hl, h.congr hsame⟩

theorem Follows.link_of_mem (hi : i ∈ l) : ∃ j, next i = some j := by
  induction l generalizing head with
  | nil => exact absurd hi not_mem_nil
  | cons c rest ih =>
    obtain ⟨_, _, j, hj, hr⟩ := h
    rcases mem_cons.mp hi with rfl | hi
    · exact ⟨j, hj⟩
    · exact ih hr hi

end

/-- Linking the cell before `i` to the one after it takes `i` out. -/
theorem Follows.unlink {front back : List α} {j : α}
    (h : Follows next stop head (front ++ i :: back)) (hnodup : (front ++ i :: back).Nodup)
    (hj : next i = some j) (hlast : ∀ p, front.getLast? = some p → next' p = some j)
    (hsame : ∀ k ∈ front ++ back, front.getLast? ≠ some k → next' k = next k) :
    Follows next' stop (if front = [] then j else head) (front ++ back) := by
  induction front generalizing head with
  | nil =>
    obtain ⟨_, _, k, hk, hback⟩ := h
    have heq : k = j := some.inj (hk.symm.trans hj)
    rw [if_pos rfl, ← heq]
    exact hback.congr fun c hc => hsame c hc nofun
  | cons c front ih =>
    obtain ⟨rfl, hc, k, hk, hr⟩ := h
    obtain ⟨hfresh, hnodup⟩ := nodup_cons.mp hnodup
    rw [if_neg (cons_ne_nil _ _)]
    cases hfront : front with
    | nil =>
      subst hfront
      obtain ⟨_, _, l, hl, hback⟩ := hr
      have heq : l = j := some.inj (hl.symm.trans hj)
      refine ⟨rfl, hc, j, hlast head rfl, ?_⟩
      rw [← heq]
      refine hback.congr fun d hd => hsame d (mem_cons_of_mem _ hd) ?_
      intro hhead
      have hcell : head = d := some.inj hhead
      rw [hcell] at hfresh
      exact hfresh (mem_cons_of_mem _ hd)
    | cons d rest =>
      have hne : front ≠ [] := by rw [hfront]; exact cons_ne_nil _ _
      have hgetLast : (head :: front).getLast? = front.getLast? := by rw [hfront]; rfl
      have htail := ih hr hnodup (fun p hp => hlast p (hgetLast.trans hp)) fun d hd hd' =>
        hsame d (mem_cons_of_mem _ hd) (by rwa [hgetLast])
      rw [if_neg hne] at htail
      rw [← hfront]
      refine ⟨rfl, hc, k, ?_, htail⟩
      rw [hsame head mem_cons_self, hk]
      rw [hgetLast]
      intro hhead
      exact hfresh (mem_append_left _ (mem_of_getLast? hhead))

theorem follows_range' (f : ℕ → α) (first count : ℕ) (hl : ∀ k, k ≤ count → next (f (first + k)) =
      some (if k = count then stop else f (first + k + 1)))
    (hstop : ∀ k, k ≤ count → f (first + k) ≠ stop) :
    Follows next stop (f first) ((List.range' first (count + 1)).map f) := by
  induction count generalizing first with
  | zero => exact ⟨rfl, hstop 0 (le_refl _), stop, hl 0 (le_refl _), rfl⟩
  | succ count ih =>
    refine ⟨rfl, hstop 0 (Nat.zero_le _), f (first + 1), ?_, ih (first + 1) ?_ ?_⟩
    · exact hl 0 (Nat.zero_le _)
    · intro k hk
      have hn := hl (k + 1) (by omega)
      rw [show first + (k + 1) = first + 1 + k by omega] at hn
      rw [hn]
      simp
    · intro k hk
      have hn := hstop (k + 1) (by omega)
      rw [show first + (k + 1) = first + 1 + k by omega] at hn
      exact hn

/-- Cells that each point to their successor, the last one to the end mark. -/
theorem follows_range (f : ℕ → α) {n : ℕ} (hn : n ≠ 0)
    (hl : ∀ k, k < n → next (f k) = some (if k + 1 = n then stop else f (k + 1)))
    (hstop : ∀ k, k < n → f k ≠ stop) : Follows next stop (f 0) ((List.range n).map f) := by
  obtain ⟨count, rfl⟩ := Nat.exists_eq_succ_of_ne_zero hn
  rw [range_eq_range']
  apply follows_range' f 0 count
  · intro k hk
    rw [Nat.zero_add, hl k (by omega)]
    simp
  intro k hk
  rw [Nat.zero_add]
  exact hstop k (by omega)

end Laghu.FreeLists
