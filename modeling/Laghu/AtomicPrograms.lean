import Laghu.Runs

/-!
Calls that run concurrently on a shared state. A call is a tree of atomic
actions whose branches are the possible answers; any number of calls are in
progress, and the schedule says which of them acts next and what the environment
answers it. A call sees the others only through the answers it gets, so its own
actions always form a path of its tree.
-/

namespace Laghu.AtomicPrograms

open Runs List Option

/-- A call that returns a `β`; action `a` is answered by an `R a`. -/
inductive Program {A : Type} (R : A → Type) (β : Type)
  | done (result : β)
  | act (action : A) (next : R action → Program R β)

variable {A : Type} {R : A → Type} {β δ : Type}

namespace Program

def bind : Program R β → (β → Program R δ) → Program R δ
  | .done b, f => f b
  | .act a next, f => .act a (fun r => (next r).bind f)

instance : Monad (Program R) where
  pure := .done
  bind := Program.bind

/-- The call that consists of one action. -/
def perform (a : A) : Program R (R a) := .act a .done

end Program

/-- An action together with the answer it got. -/
abbrev Act (R : A → Type) := (a : A) × R a

/-- The actions lead from the root of the first tree to the second. -/
inductive Path : Program R β → List (Act R) → Program R β → Prop
  | nil (p : Program R β) : Path p [] p
  | cons {a : A} {next : R a → Program R β} {r : R a} {acts : List (Act R)} {q : Program R β}
      (rest : Path (next r) acts q) : Path (.act a next) (⟨a, r⟩ :: acts) q

variable {p q : Program R β} {a : A} {b : β}

theorem Path.snoc {acts : List (Act R)} {next : R a → Program R β}
    (h : Path p acts (.act a next)) (r : R a) : Path p (acts ++ [⟨a, r⟩]) (next r) := by
  generalize hq : Program.act a next = q at h
  induction h with
  | nil p =>
    subst hq
    exact .cons (.nil _)
  | cons _ ih => exact .cons (ih hq)

theorem path_done {acts : List (Act R)} :
    Path (.done b) acts q ↔ acts = [] ∧ q = .done b := by
  constructor
  · intro h
    cases h
    exact ⟨rfl, rfl⟩
  · rintro ⟨rfl, rfl⟩
    exact .nil _

theorem path_act {next : R a → Program R β} {acts : List (Act R)}
    (h : Path (.act a next) acts q) :
    (acts = [] ∧ q = .act a next) ∨ ∃ r rest, acts = ⟨a, r⟩ :: rest ∧ Path (next r) rest q := by
  cases h with
  | nil => exact .inl ⟨rfl, rfl⟩
  | cons rest => exact .inr ⟨_, _, rfl, rest⟩

variable {f : β → Program R δ} {r : R a}

/-- A path of `p >>= f` is still inside `p`, or has left it with a result. -/
theorem path_bind {acts : List (Act R)} {q : Program R δ} (h : Path (p >>= f) acts q) :
    (∃ p', Path p acts p' ∧ q = p' >>= f) ∨
      ∃ b xs ys, acts = xs ++ ys ∧ Path p xs (.done b) ∧ Path (f b) ys q := by
  induction p generalizing acts with
  | done b => exact .inr ⟨b, [], acts, rfl, .nil _, h⟩
  | act a next ih =>
    rcases path_act h with ⟨rfl, rfl⟩ | ⟨r, rest, rfl, hr⟩
    · exact .inl ⟨.act a next, .nil _, rfl⟩
    rcases ih r hr with ⟨p', hp', hq⟩ | ⟨b, xs, ys, rfl, hxs, hys⟩
    · exact .inl ⟨p', .cons hp', hq⟩
    · exact .inr ⟨b, ⟨a, r⟩ :: xs, ys, rfl, .cons hxs, hys⟩

theorem path_bind_done {acts : List (Act R)} {d : δ} (h : Path (p >>= f) acts (.done d)) :
    ∃ b xs ys, acts = xs ++ ys ∧ Path p xs (.done b) ∧ Path (f b) ys (.done d) := by
  rcases path_bind h with ⟨p', hp', hq⟩ | hleft
  · cases p' with
    | done b =>
      have hres : f b = .done d := hq.symm
      exact ⟨b, acts, [], (append_nil acts).symm, hp', hres ▸ .nil _⟩
    | act a next => cases hq
  · exact hleft

/-- A call that passes its result through a function. -/
theorem path_map_done {f : β → δ} {acts : List (Act R)} {d : δ}
    (h : Path (do return f (← p)) acts (.done d)) : ∃ b, d = f b ∧ Path p acts (.done b) := by
  obtain ⟨b, xs, ys, rfl, hp, hdone⟩ := path_bind_done h
  obtain ⟨rfl, hd⟩ := path_done.mp hdone
  cases hd
  rw [append_nil]
  exact ⟨b, rfl, hp⟩

theorem path_perform_done {acts : List (Act R)}
    (h : Path (Program.perform a) acts (.done r)) : acts = [⟨a, r⟩] := by
  rcases path_act h with ⟨_, hq⟩ | ⟨r', rest, rfl, hrest⟩
  · cases hq
  obtain ⟨rfl, hr⟩ := path_done.mp hrest
  cases hr
  rfl

/-- Only actions with the property `Q` are ever performed. -/
def Program.Only (Q : A → Prop) (p : Program R β) : Prop :=
  ∀ acts q, Path p acts q → ∀ x ∈ acts, Q x.1

/-- No path performs more than `n` actions. -/
def Program.DepthLe (n : ℕ) (p : Program R β) : Prop :=
  ∀ acts q, Path p acts q → acts.length ≤ n

namespace Program

variable {Q Q' : A → Prop} {p : Program R β} {f : β → Program R δ}

theorem Only.mono (h : p.Only Q) (hQ : ∀ a, Q a → Q' a) : p.Only Q' :=
  fun acts q hp x hx => hQ _ (h acts q hp x hx)

theorem Only.next {next : R a → Program R β} {acts : List (Act R)} (h : p.Only Q)
    (hp : Path p acts (.act a next)) (r : R a) : Q a :=
  h _ _ (hp.snoc r) ⟨a, r⟩ (mem_append_right _ (mem_singleton_self _))

theorem only_done (b : β) : Only Q (.done b : Program R β) := by
  intro acts q hp x hx
  rw [(path_done.mp hp).1] at hx
  cases hx

theorem only_perform (h : Q a) : Only Q (perform (R := R) a) := by
  intro acts q hp x hx
  rcases path_act hp with ⟨rfl, _⟩ | ⟨r, rest, rfl, hr⟩
  · cases hx
  rw [(path_done.mp hr).1, mem_singleton] at hx
  rw [hx]
  exact h

theorem only_bind (h : p.Only Q) (hf : ∀ b, (f b).Only Q) : (p >>= f).Only Q := by
  intro acts q hp x hx
  rcases path_bind hp with ⟨p', hp', _⟩ | ⟨b, xs, ys, rfl, hxs, hys⟩
  · exact h acts p' hp' x hx
  rcases mem_append.mp hx with hx | hx
  · exact h xs _ hxs x hx
  · exact hf b ys q hys x hx

theorem DepthLe.mono {m n : ℕ} (h : p.DepthLe m) (hmn : m ≤ n) : p.DepthLe n :=
  fun acts q hp => Nat.le_trans (h acts q hp) hmn

theorem depthLe_done (b : β) : DepthLe 0 (.done b : Program R β) := by
  intro acts q hp
  rw [(path_done.mp hp).1]
  exact Nat.le_refl _

theorem depthLe_perform (a : A) : DepthLe 1 (perform (R := R) a) := by
  intro acts q hp
  rcases path_act hp with ⟨rfl, _⟩ | ⟨r, rest, rfl, hr⟩
  · exact Nat.zero_le _
  · rw [(path_done.mp hr).1]
    exact Nat.le_refl _

theorem depthLe_bind {m n : ℕ} (h : p.DepthLe m) (hf : ∀ b, (f b).DepthLe n) :
    (p >>= f).DepthLe (m + n) := by
  intro acts q hp
  rcases path_bind hp with ⟨p', hp', _⟩ | ⟨b, xs, ys, rfl, hxs, hys⟩
  · have := h acts p' hp'
    omega
  have hfirst := h xs _ hxs
  have hsec := hf b ys q hys
  rw [length_append]
  omega

theorem depthLe_map {n : ℕ} (g : β → δ) (h : p.DepthLe n) : Program.DepthLe n (do return g (← p)) :=
  depthLe_bind h (fun _ => depthLe_done _)

end Program

/-- A call in progress; `rest` is `none` once it has returned. -/
structure Thread {A : Type} (R : A → Type) (β γ : Type) where
  call : γ
  rest : Option (Program R β)

structure Config {A : Type} (R : A → Type) (β γ σ : Type) where
  shared : σ
  threads : List (Thread R β γ) := []

/-- The schedule: a new call starts, or a call makes its next move. -/
inductive Move (γ ε : Type)
  | invoke (call : γ)
  | advance (thread : ℕ) (environment : ε)

inductive Event {A : Type} (R : A → Type) (β : Type)
  | started (thread : ℕ)
  | acted (action : A) (answer : R action)
  | returned (result : β)

variable {γ σ ε : Type}

/-- The code of each call, and what an action does to the shared state. -/
structure Machine (R : A → Type) (β γ σ ε : Type) where
  body : γ → Program R β
  answer : σ → ε → (a : A) → R a × σ

namespace Machine

def step (M : Machine R β γ σ ε) (c : Config R β γ σ) :
    Move γ ε → Option (Event R β × Config R β γ σ)
  | .invoke call =>
    some (.started c.threads.length, { c with threads := c.threads ++ [⟨call, M.body call⟩] })
  | .advance i environment => do
    let thread ← c.threads[i]?
    match ← thread.rest with
    | .done result =>
      return (.returned result, { c with threads := c.threads.set i { thread with rest := none } })
    | .act a next =>
      let (r, shared) := M.answer c.shared environment a
      return (.acted a r, ⟨shared, c.threads.set i { thread with rest := next r }⟩)

/-- Only a call in progress can move. -/
def Legal (c : Config R β γ σ) : Move γ ε → Prop
  | .invoke _ => True
  | .advance i _ => ∃ thread p, c.threads[i]? = some thread ∧ thread.rest = some p

def system (M : Machine R β γ σ ε) :
    System (Config R β γ σ) (Move γ ε) (Event R β) where
  legal := Legal
  step := M.step

end Machine

section Histories

variable {M : Machine R β γ σ ε} {c c' : Config R β γ σ} {trace : List (Move γ ε × Event R β)}

variable {event : Event R β} {move : Move γ ε}

/-- Everything a move can do. -/
theorem Machine.step_cases (h : M.system.step c move = some (event, c')) :
    (∃ call, move = .invoke call ∧ event = .started c.threads.length ∧
      c' = { c with threads := c.threads ++ [⟨call, some (M.body call)⟩] }) ∨
    (∃ i e t b, move = .advance i e ∧ event = .returned b ∧ c.threads[i]? = some t ∧
      t.rest = some (.done b) ∧
      c' = { c with threads := c.threads.set i { t with rest := none } }) ∨
    ∃ i e t a next, move = .advance i e ∧ event = .acted a (M.answer c.shared e a).1 ∧
      c.threads[i]? = some t ∧ t.rest = some (.act a next) ∧
      c' = ⟨(M.answer c.shared e a).2,
        c.threads.set i { t with rest := some (next (M.answer c.shared e a).1) }⟩ := by
  change M.step c move = some (event, c') at h
  cases move with
  | invoke call =>
    simp only [Machine.step, some.injEq, Prod.mk.injEq] at h
    exact .inl ⟨call, rfl, h.1.symm, h.2.symm⟩
  | advance i e =>
    right
    simp only [Machine.step, bind_eq_bind, bind_eq_some_iff] at h
    obtain ⟨t, ht, p, hp, h⟩ := h
    cases p with
    | done b =>
      cases h
      exact .inl ⟨i, e, t, b, rfl, rfl, ht, hp, rfl⟩
    | act a next =>
      cases h
      exact .inr ⟨i, e, t, a, next, rfl, rfl, ht, hp, rfl⟩

/-- The shared state changes through actions only. -/
theorem Machine.shared_cases (h : M.system.step c move = some (event, c')) :
    ((∀ a r, event ≠ .acted a r) ∧ c'.shared = c.shared) ∨
      ∃ i e a r, move = .advance i e ∧ event = .acted a r ∧
        M.answer c.shared e a = (r, c'.shared) := by
  rcases Machine.step_cases h with ⟨call, _, rfl, rfl⟩ | ⟨i, e, t, b, _, rfl, _, _, rfl⟩ |
    ⟨i, e, t, a, next, hmove, he, _, _, rfl⟩
  iterate 2 · exact .inl ⟨(fun _ _ he => by cases he), rfl⟩
  · exact .inr ⟨i, e, a, _, hmove, he, rfl⟩

variable {i : ℕ} {e : ε} {x : Act R}

theorem Machine.acted_answer
    (h : M.system.step c (.advance i e) = some (.acted a r, c')) :
    M.answer c.shared e a = (r, c'.shared) := by
  rcases Machine.shared_cases h with ⟨he, _⟩ | ⟨j, e', a', r', hmove, he, hanswer⟩
  · exact absurd rfl (he a r)
  cases hmove
  cases he
  exact hanswer

/-- The action in an event, when it is one of call `i`. -/
def ownAct (i : ℕ) : Move γ ε × Event R β → Option (Act R)
  | (.advance j _, .acted a r) => if j = i then some ⟨a, r⟩ else none
  | _ => none

/-- The actions of call `i`, oldest first. -/
def actsOf (i : ℕ) (trace : List (Move γ ε × Event R β)) : List (Act R) :=
  trace.filterMap (ownAct i)

def ownMove (i : ℕ) : Move γ ε × Event R β → Bool
  | (.advance j _, _) => j == i
  | _ => false

/-- How often call `i` has moved; returning is a move too. -/
def moves (i : ℕ) (trace : List (Move γ ε × Event R β)) : ℕ := trace.countP (ownMove i)

theorem actsOf_append (i : ℕ) (first second : List (Move γ ε × Event R β)) :
    actsOf i (first ++ second) = actsOf i first ++ actsOf i second :=
  filterMap_append

theorem moves_append (i : ℕ) (first second : List (Move γ ε × Event R β)) :
    moves i (first ++ second) = moves i first + moves i second :=
  countP_append

theorem actsOf_singleton (i : ℕ) (event : Move γ ε × Event R β) :
    actsOf i [event] = (ownAct i event).toList := by
  cases h : ownAct i event <;> simp [actsOf, h]

theorem moves_singleton (i : ℕ) (event : Move γ ε × Event R β) :
    moves i [event] = if ownMove i event then 1 else 0 := by
  simp [moves, countP_cons]

theorem ownAct_eq_some {event : Move γ ε × Event R β} :
    ownAct i event = some x ↔ ∃ e, event = (.advance i e, .acted x.1 x.2) := by
  constructor
  · intro h
    unfold ownAct at h
    split at h
    · rename_i j e a r
      split at h
      · rename_i hj
        cases h
        exact ⟨e, by rw [hj]⟩
      · cases h
    · cases h
  · rintro ⟨e, rfl⟩
    simp [ownAct]

/-- Each action of a call happened at some point, after its earlier ones. -/
theorem actsOf_split {xs ys : List (Act R)} (h : actsOf i trace = xs ++ x :: ys) :
    ∃ before e after, trace = before ++ (.advance i e, .acted x.1 x.2) :: after ∧
      actsOf i before = xs ∧ actsOf i after = ys := by
  obtain ⟨before, rest, rfl, hpre, hr⟩ := filterMap_eq_append_iff.mp h
  obtain ⟨skipped, event, after, rfl, hskipped, he, ha⟩ :=
    filterMap_eq_cons_iff.mp hr
  obtain ⟨e, rfl⟩ := ownAct_eq_some.mp he
  refine ⟨before ++ skipped, e, after, by rw [append_assoc], ?_, ha⟩
  rw [actsOf_append, actsOf, hpre, actsOf, filterMap_eq_nil_iff.mpr hskipped, append_nil]

/-- Where call `i` stands: its actions form a path of its tree, and when it has
returned the path ends in the result. -/
structure ThreadSound (M : Machine R β γ σ ε) (trace : List (Move γ ε × Event R β)) (i : ℕ)
    (t : Thread R β γ) : Prop where
  invoked : (.invoke t.call, .started i) ∈ trace
  running : ∀ p, t.rest = some p →
    Path (M.body t.call) (actsOf i trace) p ∧ moves i trace = (actsOf i trace).length
  returned : t.rest = none → ∃ b e, (.advance i e, .returned b) ∈ trace ∧
    Path (M.body t.call) (actsOf i trace) (.done b) ∧
    moves i trace = (actsOf i trace).length + 1

structure HistorySound (M : Machine R β γ σ ε) (trace : List (Move γ ε × Event R β))
    (c : Config R β γ σ) : Prop where
  thread : ∀ i t, c.threads[i]? = some t → ThreadSound M trace i t
  unborn : ∀ i, c.threads.length ≤ i → moves i trace = 0 ∧ actsOf i trace = []
  calls : ∀ call i, (.invoke call, .started i) ∈ trace →
    ∃ t, c.threads[i]? = some t ∧ t.call = call

variable {t : Thread R β γ}

/-- An event that is not a move of call `i` leaves it where it stands. -/
theorem ThreadSound.other {event : Move γ ε × Event R β} (h : ThreadSound M trace i t)
    (hmove : ownMove i event = false) (hact : ownAct i event = none) :
    ThreadSound M (trace ++ [event]) i t := by
  have hmoves : moves i (trace ++ [event]) = moves i trace := by
    simp [moves_append, moves_singleton, hmove]
  have hacts : actsOf i (trace ++ [event]) = actsOf i trace := by
    simp [actsOf_append, actsOf_singleton, hact]
  refine ⟨mem_append_left _ h.invoked, ?_, ?_⟩
  · rw [hmoves, hacts]
    exact h.running
  intro hn
  obtain ⟨b, e, hmem, hpath⟩ := h.returned hn
  rw [hmoves, hacts]
  exact ⟨b, e, mem_append_left _ hmem, hpath⟩

theorem ThreadSound.returns (h : ThreadSound M trace i t) (hr : t.rest = some (.done b)) :
    ThreadSound M (trace ++ [(.advance i e, .returned b)]) i { t with rest := none } := by
  obtain ⟨hpath, hmoves⟩ := h.running _ hr
  refine ⟨mem_append_left _ h.invoked, (fun p hp => by cases hp), fun _ => ?_⟩
  have hacts : actsOf i (trace ++ [(.advance i e, .returned b)]) = actsOf i trace := by
    simp [actsOf_append, actsOf_singleton, ownAct]
  refine ⟨b, e, mem_append_right _ (mem_singleton_self _), ?_, ?_⟩
  · rw [hacts]
    exact hpath
  · rw [hacts, moves_append, hmoves]
    simp [moves_singleton, ownMove]

theorem ThreadSound.acts {next : R a → Program R β} (r : R a)
    (h : ThreadSound M trace i t) (hr : t.rest = some (.act a next)) :
    ThreadSound M (trace ++ [(.advance i e, .acted a r)]) i { t with rest := some (next r) } := by
  obtain ⟨hpath, hmoves⟩ := h.running _ hr
  have hacts : actsOf i (trace ++ [(.advance i e, .acted a r)]) = actsOf i trace ++ [⟨a, r⟩] := by
    simp [actsOf_append, actsOf_singleton, ownAct]
  refine ⟨mem_append_left _ h.invoked, ?_, (fun hn => by cases hn)⟩
  intro p hp
  cases hp
  rw [hacts, moves_append, hmoves, length_append]
  exact ⟨hpath.snoc r, by simp [moves_singleton, ownMove]⟩

theorem unmoved (event : Move γ ε × Event R β) (hmove : ownMove i event = false)
    (hact : ownAct i event = none) (h : moves i trace = 0 ∧ actsOf i trace = []) :
    moves i (trace ++ [event]) = 0 ∧ actsOf i (trace ++ [event]) = [] := by
  simp [moves_append, moves_singleton, actsOf_append, actsOf_singleton, hmove, hact, h.1, h.2]

/-- Only the call that moves is affected by a move. -/
theorem HistorySound.advance {t' : Thread R β γ} {s : σ} (h : HistorySound M trace c)
    (ht : c.threads[i]? = some t) (hc : t'.call = t.call)
    (ht' : ThreadSound M (trace ++ [(.advance i e, event)]) i t') :
    HistorySound M (trace ++ [(.advance i e, event)]) ⟨s, c.threads.set i t'⟩ := by
  have hi : i < c.threads.length := (List.getElem?_eq_some_iff.mp ht).1
  have hmove : ∀ j, j ≠ i → ownMove j ((.advance i e, event) : Move γ ε × Event R β) = false :=
    fun j hj => beq_eq_false_iff_ne.mpr (Ne.symm hj)
  have hact : ∀ j, j ≠ i → ownAct j ((.advance i e, event) : Move γ ε × Event R β) = none := by
    intro j hj
    cases event with
    | acted a r => exact if_neg (Ne.symm hj)
    | started k => rfl
    | returned b => rfl
  refine ⟨?_, ?_, ?_⟩
  · intro j u hu
    by_cases hj : j = i
    · subst hj
      rw [getElem?_set_self hi, some.injEq] at hu
      rw [← hu]
      exact ht'
    · rw [getElem?_set_ne (Ne.symm hj)] at hu
      exact (h.thread j u hu).other (hmove j hj) (hact j hj)
  · intro j hj
    rw [length_set] at hj
    exact unmoved _ (hmove j (by omega)) (hact j (by omega)) (h.unborn j hj)
  intro call j hmem
  rcases mem_append.mp hmem with hold | hnew
  · obtain ⟨u, hu, hc'⟩ := h.calls call j hold
    by_cases hj : j = i
    · subst hj
      rw [ht, some.injEq] at hu
      exact ⟨t', getElem?_set_self hi, by rw [hc, hu, hc']⟩
    · exact ⟨u, by rw [getElem?_set_ne (Ne.symm hj), hu], hc'⟩
  · cases mem_singleton.mp hnew

theorem HistorySound.invoke (h : HistorySound M trace c) (call : γ) :
    HistorySound M (trace ++ [(.invoke call, .started c.threads.length)])
      { c with threads := c.threads ++ [⟨call, some (M.body call)⟩] } := by
  refine ⟨?_, ?_, ?_⟩
  · intro j u hu
    rcases Nat.lt_or_ge j c.threads.length with hj | hj
    · rw [getElem?_append_left hj] at hu
      exact (h.thread j u hu).other rfl rfl
    have hl : j = c.threads.length := by
      have hbound := (List.getElem?_eq_some_iff.mp hu).1
      rw [length_append, length_singleton] at hbound
      omega
    subst hl
    rw [getElem?_concat_length, some.injEq] at hu
    subst hu
    obtain ⟨hmoves, hacts⟩ := unmoved (.invoke call, .started c.threads.length) rfl rfl
      (h.unborn _ (Nat.le_refl _))
    refine ⟨mem_append_right _ (mem_singleton_self _), ?_, (fun hn => by cases hn)⟩
    intro p hp
    cases hp
    rw [hmoves, hacts]
    exact ⟨.nil _, rfl⟩
  · intro j hj
    rw [length_append, length_singleton] at hj
    exact unmoved _ rfl rfl (h.unborn j (by omega))
  intro call' j hmem
  rcases mem_append.mp hmem with hold | hnew
  · obtain ⟨u, hu, hc'⟩ := h.calls call' j hold
    exact ⟨u, by rw [getElem?_append_left (List.getElem?_eq_some_iff.mp hu).1, hu], hc'⟩
  · cases mem_singleton.mp hnew
    exact ⟨_, getElem?_concat_length, rfl⟩

theorem run_history {s : σ} (h : Run M.system ⟨s, []⟩ trace c) : HistorySound M trace c := by
  apply h.history (P := HistorySound M)
  · intro trace c move event c' hs _ hstep
    rcases Machine.step_cases hstep with ⟨call, rfl, rfl, rfl⟩ |
      ⟨i, e, t, b, rfl, rfl, ht, hr, rfl⟩ | ⟨i, e, t, a, next, rfl, rfl, ht, hr, rfl⟩
    · exact hs.invoke call
    · exact hs.advance ht rfl ((hs.thread i t ht).returns hr)
    · exact hs.advance ht rfl ((hs.thread i t ht).acts _ hr)
  · refine ⟨?_, fun _ _ => ⟨rfl, rfl⟩, ?_⟩
    · intro i t ht
      simp at ht
    · intro call i hmem
      simp at hmem

section Runs

variable {s : σ} {i : ℕ} {e : ε} {call : γ} {before after : List (Move γ ε × Event R β)}

/-- A result is the end of a path through the tree of the call. -/
theorem returned_path
    (h : Run M.system ⟨s, []⟩ (before ++ (.advance i e, .returned b) :: after) c) :
    ∃ call, (.invoke call, .started i) ∈ before ∧
      Path (M.body call) (actsOf i before) (.done b) := by
  obtain ⟨u, v, hu, _, hstep, _⟩ := h.split
  rcases Machine.step_cases hstep with ⟨_, hmove, _⟩ | ⟨j, _, t, _, hmove, he, ht, hr, _⟩ |
    ⟨_, _, _, _, _, _, he, _⟩
  · cases hmove
  · cases hmove
    cases he
    have hthread := (run_history hu).thread i t ht
    exact ⟨t.call, hthread.invoked, (hthread.running _ hr).1⟩
  · cases he

/-- An action was the next one of its call, and it was answered from the shared
state of that moment. -/
theorem acted_path
    (h : Run M.system ⟨s, []⟩ (before ++ (.advance i e, .acted a r) :: after) c) :
    ∃ call next u v, (.invoke call, .started i) ∈ before ∧
      Path (M.body call) (actsOf i before) (.act a next) ∧ Run M.system ⟨s, []⟩ before u ∧
      M.answer u.shared e a = (r, v.shared) ∧ Run M.system v after c := by
  obtain ⟨u, v, hu, _, hstep, hv⟩ := h.split
  rcases Machine.step_cases hstep with ⟨_, hmove, _⟩ | ⟨_, _, _, _, _, he, _⟩ |
    ⟨j, _, t, _, next, hmove, he, ht, hr, hv'⟩
  · cases hmove
  · cases he
  cases hmove
  cases he
  have hthread := (run_history hu).thread i t ht
  exact ⟨t.call, next, u, v, hthread.invoked, (hthread.running _ hr).1, hu, by rw [hv'], hv⟩

theorem call_unique {call' : γ} (h : Run M.system ⟨s, []⟩ trace c)
    (hc : (.invoke call, .started i) ∈ trace) (hc' : (.invoke call', .started i) ∈ trace) :
    call = call' := by
  obtain ⟨t, ht, heq⟩ := (run_history h).calls call i hc
  obtain ⟨t', ht', heq'⟩ := (run_history h).calls call' i hc'
  rw [ht, some.injEq] at ht'
  rw [← heq, ht', heq']

theorem call_path (h : Run M.system ⟨s, []⟩ trace c) (hc : (.invoke call, .started i) ∈ trace) :
    ∃ p, Path (M.body call) (actsOf i trace) p := by
  obtain ⟨t, ht, rfl⟩ := (run_history h).calls call i hc
  have hthread := (run_history h).thread i t ht
  cases hr : t.rest with
  | some p => exact ⟨p, (hthread.running p hr).1⟩
  | none =>
    obtain ⟨b, _, _, hpath, _⟩ := hthread.returned hr
    exact ⟨.done b, hpath⟩

/-- A call does nothing before it is started. -/
theorem actsOf_before_start
    (h : Run M.system ⟨s, []⟩ (before ++ (.invoke call, .started i) :: after) c) :
    actsOf i before = [] := by
  obtain ⟨u, v, hu, _, hstep, _⟩ := h.split
  rcases Machine.step_cases hstep with ⟨_, _, he, _⟩ | ⟨_, _, _, _, hmove, _⟩ |
    ⟨_, _, _, _, _, hmove, _⟩
  · cases he
    exact ((run_history hu).unborn _ (Nat.le_refl _)).2
  · cases hmove
  · cases hmove

/-- A call that has moved more often than its tree is deep has returned. -/
theorem returned_of_moves {n : ℕ} (h : Run M.system ⟨s, []⟩ trace c)
    (hc : (.invoke call, .started i) ∈ trace) (hdeep : (M.body call).DepthLe n)
    (hmoves : n < moves i trace) : ∃ b e, (.advance i e, .returned b) ∈ trace := by
  obtain ⟨t, ht, rfl⟩ := (run_history h).calls call i hc
  have hthread := (run_history h).thread i t ht
  cases hr : t.rest with
  | some p =>
    obtain ⟨hpath, hn⟩ := hthread.running p hr
    have hlen := hdeep _ _ hpath
    omega
  | none =>
    obtain ⟨b, e, hmem, _⟩ := hthread.returned hr
    exact ⟨b, e, hmem⟩

/-- Call `i` is `call`. -/
def Invokes (trace : List (Move γ ε × Event R β)) (i : ℕ) (call : γ) : Prop :=
  (.invoke call, .started i) ∈ trace

/-- Call `i` has performed the action and got the answer. -/
def Performs (trace : List (Move γ ε × Event R β)) (i : ℕ) (x : Act R) : Prop :=
  ∃ e, (.advance i e, .acted x.1 x.2) ∈ trace

/-- Call `i` has returned `b`. -/
def Returns (trace : List (Move γ ε × Event R β)) (i : ℕ) (b : β) : Prop :=
  ∃ e, (.advance i e, .returned b) ∈ trace

theorem performs_iff : Performs trace i x ↔ x ∈ actsOf i trace := by
  constructor
  · rintro ⟨e, hmem⟩
    exact mem_filterMap.mpr ⟨_, hmem, ownAct_eq_some.mpr ⟨e, rfl⟩⟩
  intro hmem
  obtain ⟨event, he, hown⟩ := mem_filterMap.mp hmem
  obtain ⟨e, rfl⟩ := ownAct_eq_some.mp hown
  exact ⟨e, he⟩

/-- A call that has returned went along a path of its tree. -/
theorem returns_path (h : Run M.system ⟨s, []⟩ trace c) (hc : Invokes trace i call)
    (hret : Returns trace i b) :
    ∃ before after, trace = before ++ after ∧ Path (M.body call) (actsOf i before) (.done b) := by
  obtain ⟨e, hmem⟩ := hret
  obtain ⟨before, after, rfl⟩ := append_of_mem hmem
  obtain ⟨call', hc', hpath⟩ := returned_path h
  rw [call_unique h (mem_append_left _ hc') hc] at hpath
  exact ⟨before, _, rfl, hpath⟩

/-- A call acts only after it is started. -/
theorem performs_after_start (h : Run M.system ⟨s, []⟩ (before ++ after) c)
    (hc : Invokes after i call) (hx : Performs (before ++ after) i x) : Performs after i x := by
  obtain ⟨skipped, rest, rfl⟩ := append_of_mem hc
  rw [← append_assoc] at h
  have hn := actsOf_before_start h
  rw [actsOf_append, append_eq_nil_iff] at hn
  rw [performs_iff, actsOf_append, hn.1, nil_append] at hx
  exact performs_iff.mpr hx

/-- A call that has not returned can move whenever it is scheduled. -/
theorem can_advance (h : Run M.system ⟨s, []⟩ trace c) (hc : Invokes trace i call)
    (hrunning : ∀ b, ¬ Returns trace i b) (e : ε) :
    M.system.legal c (.advance i e) ∧ (M.system.step c (.advance i e)).isSome = true := by
  obtain ⟨t, ht, _⟩ := (run_history h).calls call i hc
  cases hr : t.rest with
  | none =>
    obtain ⟨b, e, hmem, _⟩ := ((run_history h).thread i t ht).returned hr
    exact absurd ⟨e, hmem⟩ (hrunning b)
  | some p =>
    refine ⟨⟨t, p, ht, hr⟩, ?_⟩
    change (M.step c (.advance i e)).isSome = true
    cases p <;> simp [Machine.step, ht, hr]

end Runs

end Histories

end Laghu.AtomicPrograms
