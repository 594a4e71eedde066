import Mathlib.Algebra.Group.Nat.Defs

/-!
Steps over a state that may fail with an error and keep the state they have reached, or get
stuck. `Returns` is their total correctness: the step gets to an end, and the outcome and
the state there satisfy a relation. A sequence of steps is verified step by step.
-/

namespace Laghu.FallibleSteps

open FallibleSteps

variable {σ ε α β : Type}

abbrev Action (σ ε α : Type) := ExceptT ε (StateT σ Option) α

def check (p : Prop) [Decidable p] (e : ε) : Action σ ε Unit := if p then pure () else throw e

/-- A computation that does not look at the state. -/
def outcome (r : Except ε α) : Action σ ε α := fun s => some (r, s)

/-- A step that does not fail, or gets stuck. -/
def perform (f : σ → Option (α × σ)) : Action σ ε α := fun s =>
  (f s).map fun out => (.ok out.1, out.2)

/-- One relation for an error and one for a result. -/
def either (E : ε → σ → Prop) (P : α → σ → Prop) : Except ε α → σ → Prop
  | .error e, t => E e t
  | .ok a, t => P a t

def Returns (x : Action σ ε α) (s : σ) (Q : Except ε α → σ → Prop) : Prop :=
  ∃ r t, x s = some (r, t) ∧ Q r t

section

variable {x : Action σ ε α} {f : α → Action σ ε β} {s : σ} {Q R : Except ε α → σ → Prop}
  {S : Except ε β → σ → Prop}

theorem Returns.pure {a : α} (h : Q (.ok a) s) : Returns (pure a : Action σ ε α) s Q :=
  ⟨.ok a, s, rfl, h⟩

theorem Returns.throw {e : ε} (h : Q (.error e) s) : Returns (throw e : Action σ ε α) s Q :=
  ⟨.error e, s, rfl, h⟩

theorem Returns.imp (hx : Returns x s Q) (h : ∀ r t, Q r t → R r t) : Returns x s R := by
  obtain ⟨r, t, hrun, hq⟩ := hx
  exact ⟨r, t, hrun, h r t hq⟩

theorem Returns.bind (hx : Returns x s Q) (herror : ∀ e t, Q (.error e) t → S (.error e) t)
    (hok : ∀ a t, Q (.ok a) t → Returns (f a) t S) : Returns (x >>= f) s S := by
  obtain ⟨r, t, hrun, hq⟩ := hx
  have hbind : (x >>= f) s = (x s).bind fun out => ExceptT.bindCont f out.1 out.2 := rfl
  cases r with
  | error e =>
    refine ⟨.error e, t, ?_, herror e t hq⟩
    rw [hbind, hrun]
    rfl
  | ok a =>
    obtain ⟨r, u, hn, hs⟩ := hok a t hq
    refine ⟨r, u, ?_, hs⟩
    rw [hbind, hrun]
    exact hn

theorem Returns.check {p : Prop} [Decidable p] {e : ε} {g : Unit → Action σ ε β}
    (herror : ¬ p → S (.error e) s) (hok : p → Returns (g ()) s S) :
    Returns (check p e >>= g) s S := by
  by_cases hp : p
  · apply Returns.bind (Q := fun r t => r = .ok () ∧ t = s)
    · rw [FallibleSteps.check, if_pos hp]
      exact .pure ⟨rfl, rfl⟩
    · intro e t h
      cases h.1
    intro u t h
    rw [h.2]
    exact hok hp
  apply Returns.bind (Q := fun r t => r = .error e ∧ t = s)
  · rw [FallibleSteps.check, if_neg hp]
    exact .throw ⟨rfl, rfl⟩
  · intro e' t h
    cases h.1
    rw [h.2]
    exact herror hp
  · intro u t h
    cases h.1

theorem Returns.test {p : Prop} [Decidable p] {e : ε} :
    Returns (FallibleSteps.check p e : Action σ ε Unit) s
      (either (fun _ _ => ¬ p) fun _ t => p ∧ t = s) := by
  unfold FallibleSteps.check
  split
  · exact .pure ⟨‹p›, rfl⟩
  · exact .throw ‹¬ p›

theorem Returns.outcome {r : Except ε α} (h : Q r s) : Returns (outcome r : Action σ ε α) s Q :=
  ⟨r, s, rfl, h⟩

theorem Returns.perform {g : σ → Option (α × σ)} {a : α} {t : σ} (hrun : g s = some (a, t))
    (h : Q (.ok a) t) : Returns (perform g : Action σ ε α) s Q := by
  refine ⟨.ok a, t, ?_, h⟩
  rw [FallibleSteps.perform, hrun]
  rfl

theorem Returns.perform_bind {g : σ → Option (α × σ)} {a : α} {t : σ} (hrun : g s = some (a, t))
    (h : Returns (f a) t S) : Returns (FallibleSteps.perform g >>= f) s S := by
  obtain ⟨r, u, hn, hs⟩ := h
  refine ⟨r, u, ?_, hs⟩
  have hbind : (FallibleSteps.perform g >>= f) s =
      ((g s).map fun out => (Except.ok out.1, out.2)).bind
        fun out => ExceptT.bindCont f out.1 out.2 := rfl
  rw [hbind, hrun]
  exact hn

end

section

variable {xs : List α} {f : α → Action σ ε PUnit} {s : σ} {E : ε → σ → Prop}

/-- The loop rule: `I` says what holds when the loop has come past some of the elements. -/
theorem Returns.forM {I : List α → σ → Prop} (hstart : I [] s)
    (hstep : ∀ earlier x later t, xs = earlier ++ x :: later → I earlier t →
      Returns (f x) t (either E fun _ => I (earlier ++ [x]))) :
    Returns (xs.forM f) s (either E fun _ => I xs) := by
  suffices hloop : ∀ later earlier t, xs = earlier ++ later → I earlier t →
      Returns (later.forM f) t (either E fun _ => I xs) from hloop xs [] s rfl hstart
  intro later
  induction later with
  | nil =>
    intro earlier t hsplit ht
    rw [List.append_nil] at hsplit
    rw [hsplit]
    exact .pure ht
  | cons x later ih =>
    intro earlier t hsplit ht
    refine Returns.bind (hstep earlier x later t hsplit ht) (fun _ _ h => h) ?_
    intro _ u hu
    exact ih (earlier ++ [x]) u (by rw [hsplit, List.append_assoc]; rfl) hu

/-- A loop of tests finds out whether all of them pass. -/
theorem Returns.forM_checks {P : α → Prop}
    (h : ∀ x ∈ xs, Returns (f x) s (either (fun _ _ => ¬ P x) fun _ t => P x ∧ t = s)) :
    Returns (xs.forM f) s
      (either (fun _ _ => ¬ ∀ x ∈ xs, P x) fun _ t => (∀ x ∈ xs, P x) ∧ t = s) := by
  apply Returns.forM (I := fun earlier t => (∀ x ∈ earlier, P x) ∧ t = s)
  · exact ⟨(fun x hx => by cases hx), rfl⟩
  intro earlier x later t hsplit ht
  have hx : x ∈ xs := by
    rw [hsplit]
    exact List.mem_append_right _ (List.mem_cons_self ..)
  rw [ht.2]
  refine (h x hx).imp ?_
  intro r u hr
  cases r with
  | error e => exact fun hall => hr (hall x hx)
  | ok _ =>
    refine ⟨?_, hr.2⟩
    intro y hy
    rcases List.mem_append.mp hy with hy | hy
    · exact ht.1 y hy
    · rw [List.mem_singleton.mp hy]
      exact hr.1

end

section

variable {x : Action σ ε α} {f : α → Action σ ε β} {s t : σ} {a b : α} {e : ε}

/-- The step gives a result, and this state. -/
def Yields (x : Action σ ε α) (s : σ) (a : α) (t : σ) : Prop := x s = some (.ok a, t)

@[simp] theorem yields_pure : Yields (pure a : Action σ ε α) s b t ↔ b = a ∧ t = s := by
  change some (Except.ok a, s) = some (Except.ok b, t) ↔ _
  constructor
  · intro h
    cases h
    exact ⟨rfl, rfl⟩
  · intro h
    rw [h.1, h.2]

@[simp] theorem not_yields_throw : ¬ Yields (throw e : Action σ ε α) s a t := by
  intro h
  cases h

@[simp] theorem yields_bind {c : β} {u : σ} :
    Yields (x >>= f) s c u ↔ ∃ a t, Yields x s a t ∧ Yields (f a) t c u := by
  have hbind : (x >>= f) s = (x s).bind fun out => ExceptT.bindCont f out.1 out.2 := rfl
  unfold Yields
  rw [hbind, Option.bind_eq_some_iff]
  constructor
  · intro h
    obtain ⟨⟨r, t⟩, hx, hf⟩ := h
    cases r with
    | error e => cases hf
    | ok a => exact ⟨a, t, hx, hf⟩
  · intro h
    obtain ⟨a, t, hx, hf⟩ := h
    exact ⟨(.ok a, t), hx, hf⟩

@[simp] theorem yields_check {p : Prop} [Decidable p] {u : Unit} :
    Yields (check p e : Action σ ε Unit) s u t ↔ p ∧ t = s := by
  unfold check
  split
  · rename_i hp
    exact yields_pure.trans ⟨fun h => ⟨hp, h.2⟩, fun h => ⟨rfl, h.2⟩⟩
  · rename_i hp
    exact ⟨fun h => (not_yields_throw h).elim, fun h => (hp h.1).elim⟩

@[simp] theorem yields_check_bind {p : Prop} [Decidable p] {g : Unit → Action σ ε α} :
    Yields (check p e >>= g) s a t ↔ p ∧ Yields (g ()) s a t := by
  simp only [yields_bind, yields_check, and_assoc, exists_and_left, exists_eq_left]
  exact and_congr_right fun _ => ⟨fun ⟨_, h⟩ => h, fun h => ⟨(), h⟩⟩

@[simp] theorem yields_perform {g : σ → Option (α × σ)} :
    Yields (perform g : Action σ ε α) s a t ↔ g s = some (a, t) := by
  change (g s).map (fun out => (Except.ok out.1, out.2)) = some (Except.ok a, t) ↔ _
  rw [Option.map_eq_some_iff]
  constructor
  · intro h
    obtain ⟨out, hg, hout⟩ := h
    cases hout
    exact hg
  · intro h
    exact ⟨(a, t), h, rfl⟩

/-- The step comes to an end, with a result or an error. -/
def Halts (x : Action σ ε α) (s : σ) : Prop := ∃ out, x s = some out

theorem halts_pure : Halts (pure a : Action σ ε α) s := ⟨_, rfl⟩

theorem halts_throw : Halts (throw e : Action σ ε α) s := ⟨_, rfl⟩

theorem halts_check {p : Prop} [Decidable p] :
    Halts (check p e : Action σ ε Unit) s := by
  unfold check
  split
  · exact halts_pure
  · exact halts_throw

theorem halts_perform {g : σ → α × σ} :
    Halts (perform fun s => some (g s) : Action σ ε α) s := ⟨_, rfl⟩

theorem halts_bind (hx : Halts x s) (hf : ∀ a t, Yields x s a t → Halts (f a) t) :
    Halts (x >>= f) s := by
  obtain ⟨⟨r, t⟩, hrun⟩ := hx
  have hbind : (x >>= f) s = (x s).bind fun out => ExceptT.bindCont f out.1 out.2 := rfl
  unfold Halts
  rw [hbind, hrun]
  cases r with
  | error e => exact ⟨_, rfl⟩
  | ok a => exact hf a t hrun

end

end Laghu.FallibleSteps
