import Laghu.ObjectTable

/-!
Loops of the form "start at an object and follow its parent link until there is
none". Parents are older than their children, so such a loop visits every
object at most once and ends. A body that changes objects without moving their
links therefore acts on the visited objects independently of each other.
-/

namespace Laghu.ParentChain

open ObjectTable ObjectTable.Table

variable {α ε : Type*} (up : α → Option ℕ)

def link (t : Table α) (b : ℕ) : Option ℕ := (t.get? b).bind up

/-- The loop started at `b` visits `a`. -/
def OnChain (parent : ℕ → Option ℕ) (b a : ℕ) : Prop :=
  Relation.ReflTransGen (fun x y => parent x = some y) b a

/-- Links lead to older objects that are still alive. -/
structure Rooted (t : Table α) : Prop where
  older : ∀ b p, link up t b = some p → p < b
  live : ∀ b p, link up t b = some p → ∃ y, t.get? p = some y

/-- The loop as written in the source. It is stuck (`none`) on a dangling link
and when its body stops the program; `fuel` bounds the number of rounds. -/
def forEach (body : α → Option α) : ℕ → Option ℕ → Table α → Option (Table α)
  | _, none, t => some t
  | 0, some _, _ => none
  | fuel + 1, some b, t =>
    match t.get? b with
    | none => none
    | some x =>
      match body x with
      | none => none
      | some y => forEach body fuel (up x) (t.set b y)

/-- A loop that only reads, and returns at the first object it objects to. -/
def check (test : α → Except ε Unit) : ℕ → Option ℕ → Table α → Option (Except ε Unit)
  | _, none, _ => some (.ok ())
  | 0, some _, _ => none
  | fuel + 1, some b, t =>
    match t.get? b with
    | none => none
    | some x =>
      match test x with
      | .error e => some (.error e)
      | .ok () => check test fuel (up x) t

/-- `t'` is `t` with `f` applied to the objects on the chain of `b`. -/
structure Mapped (t t' : Table α) (b : ℕ) (f : α → α) : Prop where
  size_eq : t'.size = t.size
  on : ∀ a, OnChain (link up t) b a → t'.get? a = (t.get? a).map f
  off : ∀ a, ¬ OnChain (link up t) b a → t'.get? a = t.get? a

theorem onChain_refl (parent : ℕ → Option ℕ) (b : ℕ) : OnChain parent b b :=
  Relation.ReflTransGen.refl

theorem onChain_cases (parent : ℕ → Option ℕ) (b a : ℕ) :
    OnChain parent b a ↔ a = b ∨ ∃ p, parent b = some p ∧ OnChain parent p a := by
  unfold OnChain
  rw [Relation.ReflTransGen.cases_head_iff]
  simp only [eq_comm]

variable {b fuel : ℕ}

theorem onChain_le {parent : ℕ → Option ℕ} (h : ∀ b p, parent b = some p → p < b) {a : ℕ}
    (hab : OnChain parent b a) : a ≤ b := by
  induction hab with
  | refl => exact Nat.le_refl b
  | tail _ hl ih =>
    have := h _ _ hl
    omega

/-- A chain depends only on the links of the objects it visits. -/
theorem onChain_congr {parent parent' : ℕ → Option ℕ}
    (h : ∀ x, OnChain parent b x → parent' x = parent x) (a : ℕ) :
    OnChain parent' b a ↔ OnChain parent b a := by
  constructor
  · intro hab
    induction hab with
    | refl => exact onChain_refl parent b
    | tail _ hl ih => exact ih.tail (by rw [← h _ ih]; exact hl)
  intro hab
  induction hab with
  | refl => exact onChain_refl parent' b
  | tail hpath hl ih => exact ih.tail (by rw [h _ hpath]; exact hl)

section Loops

variable {up}

variable {t t' : Table α} {b : ℕ}

variable {x y : α}

theorem link_of_get? (h : t.get? b = some x) : link up t b = up x := by
  simp [link, h]

theorem link_set (h : t.get? b = some x) (hy : up y = up x) : link up (t.set b y) = link up t := by
  funext a
  by_cases hab : a = b
  · subst hab
    rw [link_of_get? (get?_set_self y h), link_of_get? h, hy]
  · simp only [link, get?_set_ne t y hab]

theorem Rooted.of_link_eq (h : Rooted up t) (hlink : link up t' = link up t)
    (hl : ∀ a y, t.get? a = some y → ∃ y', t'.get? a = some y') : Rooted up t' where
  older b p hp := h.older b p (by rwa [← hlink])
  live b p hp := by
    obtain ⟨y, hy⟩ := h.live b p (by rwa [← hlink])
    exact hl p y hy

theorem Rooted.set (h : Rooted up t) (hx : t.get? b = some x) (hy : up y = up x) :
    Rooted up (t.set b y) := by
  apply h.of_link_eq (link_set hx hy)
  intro a z hz
  exact live_set b y hz

theorem link_push (t : Table α) (x : α) (c : ℕ) :
    link up (t.push x) c = if c = t.size then up x else link up t c := by
  by_cases hc : c = t.size
  · subst hc
    simp [link]
  · simp [link, hc, get?_push_ne t x hc]

theorem link_erase (t : Table α) (b c : ℕ) :
    link up (t.erase b) c = if c = b then none else link up t c := by
  by_cases hc : c = b
  · subst hc
    simp [link, get?_erase_self]
  · simp [link, hc, get?_erase_ne t hc]

theorem Rooted.push (h : Rooted up t) (hx : ∀ p, up x = some p → ∃ y, t.get? p = some y) :
    Rooted up (t.push x) := by
  have hl : ∀ c p, link up (t.push x) c = some p → ∃ y, t.get? p = some y := by
    intro c p hp
    rw [link_push] at hp
    split at hp
    · exact hx p hp
    · exact h.live c p hp
  refine ⟨?_, ?_⟩
  · intro c p hp
    obtain ⟨y, hy⟩ := hl c p hp
    rw [link_push] at hp
    split at hp
    · have := lt_size_of_get? hy
      omega
    · exact h.older c p hp
  · intro c p hp
    obtain ⟨y, hy⟩ := hl c p hp
    exact ⟨y, get?_push_of_some x hy⟩

/-- An object that nobody links to can go. -/
theorem Rooted.erase (h : Rooted up t) (hleaf : ∀ c, link up t c ≠ some b) :
    Rooted up (t.erase b) := by
  have hold : ∀ c p, link up (t.erase b) c = some p → link up t c = some p := by
    intro c p hp
    rw [link_erase] at hp
    split at hp
    · cases hp
    · exact hp
  refine ⟨fun c p hp => h.older c p (hold c p hp), ?_⟩
  intro c p hp
  obtain ⟨y, hy⟩ := h.live c p (hold c p hp)
  have hne : p ≠ b := fun heq => hleaf c (heq ▸ hold c p hp)
  exact ⟨y, by rw [get?_erase_ne t hne, hy]⟩

variable {f : α → α}

variable (h : Mapped up t t' b f)
include h

theorem Mapped.link_eq (hf : ∀ x, up (f x) = up x) : link up t' = link up t := by
  funext a
  by_cases ha : OnChain (link up t) b a
  · simp only [link, h.on a ha]
    cases t.get? a <;> simp [hf]
  · simp only [link, h.off a ha]

theorem Mapped.get?_some {a : ℕ} {x' : α} (hx' : t'.get? a = some x') :
    (OnChain (link up t) b a ∧ ∃ x, t.get? a = some x ∧ x' = f x) ∨
      (¬ OnChain (link up t) b a ∧ t.get? a = some x') := by
  by_cases ha : OnChain (link up t) b a
  · left
    rw [h.on a ha, Option.map_eq_some_iff] at hx'
    obtain ⟨x, hx, hfx⟩ := hx'
    exact ⟨ha, x, hx, hfx.symm⟩
  · right
    exact ⟨ha, by rwa [← h.off a ha]⟩

theorem Mapped.live (a : ℕ) (y : α) (hy : t.get? a = some y) : ∃ y', t'.get? a = some y' := by
  by_cases ha : OnChain (link up t) b a
  · exact ⟨f y, by rw [h.on a ha, hy]; rfl⟩
  · exact ⟨y, by rw [h.off a ha, hy]⟩

/-- Undoing the change on every visited object restores the table. -/
theorem Mapped.cancel {t'' : Table α} {g : α → α} (h' : Mapped up t' t'' b g)
    (hf : ∀ x, up (f x) = up x)
    (hgf : ∀ a x, OnChain (link up t) b a → t.get? a = some x → g (f x) = x) : t'' = t := by
  have hl := h.link_eq hf
  apply ext_get? (h'.size_eq.trans h.size_eq)
  intro a
  by_cases ha : OnChain (link up t) b a
  · rw [h'.on a (by rwa [hl]), h.on a ha]
    cases hx : t.get? a with
    | none => rfl
    | some x => simp [hgf a x ha hx]
  · rw [h'.off a (by rwa [hl]), h.off a ha]

end Loops

/-- The loop rule: when the body is defined on every object of the chain, the
loop ends and applies it to exactly those objects. -/
theorem forEach_mapped (body : α → Option α) (f : α → α) (hf : ∀ x, up (f x) = up x) {t : Table α}
    {x : α} (hfuel : b < fuel) (h : Rooted up t) (hx : t.get? b = some x)
    (hbody : ∀ a y, OnChain (link up t) b a → t.get? a = some y → body y = some (f y)) :
    ∃ t', forEach up body fuel (some b) t = some t' ∧ Mapped up t t' b f := by
  induction fuel generalizing b t x with
  | zero => omega
  | succ fuel ih =>
    have hstep : forEach up body (fuel + 1) (some b) t =
        forEach up body fuel (up x) (t.set b (f x)) := by
      simp [forEach, hx, hbody b x (onChain_refl _ b) hx]
    have hl : link up (t.set b (f x)) = link up t := link_set hx (hf x)
    cases hup : up x with
    | none =>
      refine ⟨t.set b (f x), by rw [hstep, hup]; cases fuel <;> rfl, ?_, ?_, ?_⟩
      · simp
      · intro a ha
        rcases (onChain_cases _ b a).mp ha with rfl | ⟨p, hp, _⟩
        · rw [get?_set_self _ hx, hx]
          rfl
        · rw [link_of_get? hx, hup] at hp
          cases hp
      · intro a ha
        apply get?_set_ne
        rintro rfl
        exact ha (onChain_refl _ a)
    | some p =>
      have hbp : link up t b = some p := by rw [link_of_get? hx, hup]
      have hpb : p < b := h.older b p hbp
      obtain ⟨y, hy⟩ := h.live b p hbp
      have hbelow : ∀ a, OnChain (link up t) p a → a ≠ b := by
        intro a ha
        have := onChain_le h.older ha
        omega
      have hon : ∀ a, OnChain (link up t) p a → OnChain (link up t) b a := fun a ha =>
        (onChain_cases _ b a).mpr (.inr ⟨p, hbp, ha⟩)
      obtain ⟨t', hrun, hmap⟩ := ih (b := p) (t := t.set b (f x)) (x := y) (by omega)
        (h.set hx (hf x)) (by rw [get?_set_ne _ _ (by omega), hy])
        (by
          intro a z ha hz
          rw [hl] at ha
          rw [get?_set_ne _ _ (hbelow a ha)] at hz
          exact hbody a z (hon a ha) hz)
      refine ⟨t', by rw [hstep, hup, hrun], ?_, ?_, ?_⟩
      · rw [hmap.size_eq, size_set]
      · intro a ha
        rcases (onChain_cases _ b a).mp ha with rfl | ⟨q, hq, haq⟩
        · have hnot : ¬ OnChain (link up t) p a := fun hpa => hbelow a hpa rfl
          rw [hmap.off a (by rwa [hl]), get?_set_self _ hx, hx]
          rfl
        have hqp : q = p := by
          rw [hbp] at hq
          exact (Option.some.inj hq).symm
        subst hqp
        rw [hmap.on a (by rwa [hl]), get?_set_ne _ _ (hbelow a haq)]
      · intro a ha
        have hab : a ≠ b := by
          rintro rfl
          exact ha (onChain_refl _ a)
        have hnot : ¬ OnChain (link up t) p a := fun hpa => ha (hon a hpa)
        rw [hmap.off a (by rwa [hl]), get?_set_ne _ _ hab]

/-- A reading loop succeeds when every visited object passes, and otherwise
returns the complaint of one of them. -/
theorem check_cases (test : α → Except ε Unit) {t : Table α} {x : α} (hfuel : b < fuel)
    (h : Rooted up t) (hx : t.get? b = some x) :
    ((∀ a y, OnChain (link up t) b a → t.get? a = some y → test y = .ok ()) ∧
        check up test fuel (some b) t = some (.ok ())) ∨
      ∃ a y e, OnChain (link up t) b a ∧ t.get? a = some y ∧ test y = .error e ∧
        check up test fuel (some b) t = some (.error e) := by
  induction fuel generalizing b x with
  | zero => omega
  | succ fuel ih =>
    cases htest : test x with
    | error e =>
      exact .inr ⟨b, x, e, onChain_refl _ b, hx, htest, by simp [check, hx, htest]⟩
    | ok u =>
      have hstep : check up test (fuel + 1) (some b) t = check up test fuel (up x) t := by
        simp [check, hx, htest]
      rw [hstep]
      cases hup : up x with
      | none =>
        refine .inl ⟨?_, by cases fuel <;> rfl⟩
        intro a y ha hy
        rcases (onChain_cases _ b a).mp ha with rfl | ⟨p, hp, _⟩
        · rw [hx] at hy
          cases hy
          exact htest
        · rw [link_of_get? hx, hup] at hp
          cases hp
      | some p =>
        have hbp : link up t b = some p := by rw [link_of_get? hx, hup]
        have hpb : p < b := h.older b p hbp
        obtain ⟨y, hy⟩ := h.live b p hbp
        rcases ih (b := p) (x := y) (by omega) hy with ⟨hall, hok⟩ | ⟨a, z, e, ha, hz, he, hrun⟩
        · refine .inl ⟨?_, hok⟩
          intro a z ha hz
          rcases (onChain_cases _ b a).mp ha with rfl | ⟨q, hq, haq⟩
          · rw [hx] at hz
            cases hz
            exact htest
          rw [hbp] at hq
          cases hq
          exact hall a z haq hz
        · exact .inr ⟨a, z, e, (onChain_cases _ b a).mpr (.inr ⟨p, hbp, ha⟩), hz, he, hrun⟩

end Laghu.ParentChain
