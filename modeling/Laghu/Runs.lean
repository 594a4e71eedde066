import Mathlib.Data.List.Basic

/-!
Runs of a deterministic component driven by its callers. A step consumes one
call and either stops the program or returns an output with the next state.
Which calls a caller may make is a separate predicate, so that the component
itself never has to defend against calls its contract excludes.
-/

namespace Laghu.Runs

open List

variable {σ ι ο : Type*}

/-- `step` is `none` exactly when the call stops the program. -/
structure System (σ ι ο : Type*) where
  legal : σ → ι → Prop
  step : σ → ι → Option (ο × σ)

/-- A run together with the calls made and the outputs returned, oldest first. -/
inductive Run (S : System σ ι ο) : σ → List (ι × ο) → σ → Prop
  | refl (s : σ) : Run S s [] s
  | tail {s t u : σ} {trace : List (ι × ο)} {i : ι} {o : ο}
      (run : Run S s trace t) (legal : S.legal t i) (step : S.step t i = some (o, u)) :
      Run S s (trace ++ [(i, o)]) u

def Reachable (S : System σ ι ο) (init : σ → Prop) (s : σ) : Prop :=
  ∃ s₀ trace, init s₀ ∧ Run S s₀ trace s

variable {S : System σ ι ο} {s t u : σ} {trace trace' : List (ι × ο)}

theorem Run.append (h : Run S s trace t) (h' : Run S t trace' u) : Run S s (trace ++ trace') u := by
  induction h' with
  | refl => simpa using h
  | tail _ hl hstep ih =>
    rw [← append_assoc]
    exact .tail ih hl hstep

variable {i : ι} {o : ο}

theorem Run.single (hl : S.legal s i) (hstep : S.step s i = some (o, t)) : Run S s [(i, o)] t :=
  .tail (.refl s) hl hstep

theorem Run.cons (hl : S.legal s i) (hstep : S.step s i = some (o, t)) (h : Run S t trace u) :
    Run S s ((i, o) :: trace) u :=
  (Run.single hl hstep).append h

variable {P init : σ → Prop}

/-- What every legal step preserves, every run preserves. -/
theorem Run.invariant (h : Run S s trace t)
    (hstep : ∀ s i o t, P s → S.legal s i → S.step s i = some (o, t) → P t) (hs : P s) : P t := by
  induction h with
  | refl => exact hs
  | tail _ hl hn ih => exact hstep _ _ _ _ ih hl hn

/-- The same rule for a property of the state together with the calls so far. -/
theorem Run.history {P : List (ι × ο) → σ → Prop} (h : Run S s trace t)
    (hstep : ∀ trace s i o t, P trace s → S.legal s i → S.step s i = some (o, t) →
      P (trace ++ [(i, o)]) t)
    (hs : P [] s) : P trace t := by
  induction h with
  | refl => exact hs
  | tail _ hl hn ih => exact hstep _ _ _ _ _ ih hl hn

theorem getElem?_append_singleton {α : Type*} {l : List α} {a b : α} {i : ℕ}
    (h : (l ++ [a])[i]? = some b) : l[i]? = some b ∨ (i = l.length ∧ b = a) := by
  by_cases hi : i < l.length
  · rw [getElem?_append_left hi] at h
    exact .inl h
  rw [getElem?_append_right (Nat.le_of_not_lt hi), getElem?_singleton] at h
  split at h
  · exact .inr ⟨by omega, (Option.some.inj h).symm⟩
  · cases h

/-- The event that ends a longer history is the last one or belongs to the
earlier history. -/
theorem append_singleton_cases {α : Type*} {l before after : List α} {last event : α}
    (h : l ++ [last] = before ++ event :: after) :
    (before = l ∧ event = last ∧ after = []) ∨
      ∃ rest, l = before ++ event :: rest ∧ after = rest ++ [last] := by
  rcases eq_nil_or_concat after with hnil | ⟨rest, tail, ha⟩
  · subst hnil
    obtain ⟨hl, he⟩ := append_inj' h rfl
    exact .inl ⟨hl.symm, (singleton_inj.mp he).symm, rfl⟩
  subst ha
  rw [concat_eq_append, ← cons_append, ← append_assoc] at h
  obtain ⟨hl, htail⟩ := append_inj' h rfl
  exact .inr ⟨rest, hl, by rw [concat_eq_append, singleton_inj.mp htail]⟩

/-- A run can be cut at any of its events. -/
theorem Run.split {before after : List (ι × ο)} (h : Run S s (before ++ (i, o) :: after) t) :
    ∃ u v, Run S s before u ∧ S.legal u i ∧ S.step u i = some (o, v) ∧ Run S v after t := by
  generalize htrace : before ++ (i, o) :: after = trace at h
  induction h generalizing after with
  | refl => simp at htrace
  | tail run hl hstep ih =>
    rcases append_singleton_cases htrace.symm with ⟨hpre, he, ha⟩ | ⟨rest, hold, ha⟩
    · subst hpre ha
      cases he
      exact ⟨_, _, run, hl, hstep, .refl _⟩
    obtain ⟨u, v, hu, hl', hstep', hv⟩ := ih hold.symm
    rw [ha]
    exact ⟨u, v, hu, hl', hstep', .tail hv hl hstep⟩

theorem Reachable.of_init (hs : init s) : Reachable S init s :=
  ⟨s, [], hs, .refl s⟩

theorem Reachable.append (h : Reachable S init s) (h' : Run S s trace t) : Reachable S init t := by
  obtain ⟨s₀, before, hinit, hrun⟩ := h
  exact ⟨s₀, before ++ trace, hinit, hrun.append h'⟩

theorem Reachable.step (h : Reachable S init s) (hl : S.legal s i)
    (hstep : S.step s i = some (o, t)) : Reachable S init t :=
  h.append (.single hl hstep)

theorem Reachable.invariant (h : Reachable S init s) (hinit : ∀ s, init s → P s)
    (hstep : ∀ s i o t, P s → S.legal s i → S.step s i = some (o, t) → P t) : P s := by
  obtain ⟨s₀, _, hs₀, hrun⟩ := h
  exact hrun.invariant hstep (hinit s₀ hs₀)

end Laghu.Runs
