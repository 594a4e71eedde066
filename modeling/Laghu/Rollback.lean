import Mathlib.Data.List.Range

/-!
Numbered steps that are taken one after another and taken back in the opposite
order. The first step that fails ends the way up; on the way down every step is
taken back, and the first failure is kept.
-/

namespace Laghu.Rollback

open List

variable {ε : Type*}

/-- The steps attempted, oldest first, and what came of each. -/
abbrev Attempts (ε : Type*) := List (ℕ × Except ε Unit)

/-- Takes `remaining` steps from `index` on. `done` counts those that succeeded. -/
def climb (act : ℕ → Except ε Unit) : ℕ → ℕ → ℕ → Attempts ε × ℕ × Option ε
  | 0, _, done => ([], done, none)
  | remaining + 1, index, done =>
    match act index with
    | .error e => ([(index, .error e)], done, some e)
    | .ok () =>
      let rest := climb act remaining (index + 1) (done + 1)
      ((index, .ok ()) :: rest.1, rest.2)

/-- Takes back the steps below `count`, the last one first. -/
def unwind (undo : ℕ → Except ε Unit) : ℕ → Option ε → Attempts ε × Option ε
  | 0, first => ([], first)
  | count + 1, first =>
    let rest := unwind undo count (match undo count, first with
      | .error e, none => some e
      | _, first => first)
    ((count, undo count) :: rest.1, rest.2)

/-- The error of the first attempt that failed. -/
def firstError (attempts : Attempts ε) : Option ε :=
  attempts.findSome? fun attempt => match attempt.2 with
    | .error e => some e
    | .ok _ => none

def succeeding (index count : ℕ) : Attempts ε :=
  (List.range' index count).map fun i => (i, .ok ())

theorem succeeding_succ (index count : ℕ) : (succeeding index (count + 1) : Attempts ε) =
      (index, .ok ()) :: succeeding (index + 1) count := by
  rw [succeeding, range'_succ, map_cons, succeeding]

theorem climb_cases (act : ℕ → Except ε Unit) (remaining index done : ℕ) :
    climb act remaining index done = (succeeding index remaining, done + remaining, none) ∨
      ∃ k e, k < remaining ∧ climb act remaining index done =
        (succeeding index k ++ [(index + k, .error e)], done + k, some e) := by
  induction remaining generalizing index done with
  | zero => exact .inl rfl
  | succ remaining ih =>
    cases hact : act index with
    | error e =>
      refine .inr ⟨0, e, Nat.succ_pos _, ?_⟩
      simp [climb, hact, succeeding]
    | ok u =>
      rcases ih (index + 1) (done + 1) with h | ⟨k, e, hk, h⟩
      · refine .inl ?_
        simp only [climb, hact, h, succeeding_succ]
        rw [Nat.add_right_comm, Nat.add_assoc]
      refine .inr ⟨k + 1, e, Nat.succ_lt_succ hk, ?_⟩
      simp only [climb, hact, h, succeeding_succ, cons_append]
      rw [Nat.add_right_comm, Nat.add_assoc, Nat.add_right_comm, Nat.add_assoc]

theorem unwind_attempts (undo : ℕ → Except ε Unit) (count : ℕ) (first : Option ε) :
    (unwind undo count first).1 = (List.range count).reverse.map fun i => (i, undo i) := by
  induction count generalizing first with
  | zero => rfl
  | succ count ih =>
    simp only [unwind, range_succ, reverse_append, reverse_singleton,
      singleton_append, map_cons, ih]

theorem unwind_first (undo : ℕ → Except ε Unit) (count : ℕ) (first : Option ε) :
    (unwind undo count first).2 = first.or (firstError (unwind undo count first).1) := by
  induction count generalizing first with
  | zero => simp [unwind, firstError]
  | succ count ih =>
    simp only [unwind, ih, firstError, findSome?_cons, unwind_attempts]
    cases undo count <;> cases first <;> simp

end Laghu.Rollback
