import Laghu.Handles

/-!
What one call on the handles does. A handle owns nothing, or a descriptor that it can
close; a call adds at most one owner or takes at most one away, whatever a close
operation answers.
-/

namespace Laghu.Handles

open Contract Multiset ObjectTable.Table Handle World
open ObjectTable (Table)

/-- The handle owns nothing. -/
def Handle.Vacant (h : Handle) : Prop := h = { kind := h.kind }

/-- The handle owns a descriptor that it can close. -/
def Handle.Armed (h : Handle) : Prop :=
  h.isValid = true ∧ ∃ operations, h.operations = some operations ∧ operations.close = true

def World.Sound (w : World) : Prop := ∀ h ∈ w.handles.values, h.Vacant ∨ h.Armed

/-- The handles that own something. -/
def World.owning (w : World) : Multiset Handle := w.handles.values.filter fun h => h.isValid

theorem holders_eq (w : World) (d : Int) :
    w.holders d = w.owning.countP fun h => h.descriptor == d := by
  rw [holders, owning, countP_filter]
  congr 1
  funext h
  simp [and_comm]

section

variable {h other : Handle}

theorem Handle.Vacant.isValid (hvac : h.Vacant) : h.isValid = false := by
  rw [hvac]
  rfl

theorem vacant_mk (kind : HandleKind) : Vacant { kind := kind } := rfl

theorem moveFrom_eq (hk : h.kind = other.kind) (hs : other.Vacant ∨ other.Armed) :
    h.moveFrom other = (other, { kind := other.kind }) := by
  obtain ⟨kind, descriptor, operations⟩ := other
  rcases hs with hvac | harmed
  · rw [hvac, moveFrom, hk]
    rfl
  · have hv : 0 ≤ descriptor := by simpa [isValid] using harmed.1
    simp [moveFrom, release, isValid, hv, hk]

theorem close_vacant (hvac : h.Vacant) (reply : CloseReply) :
    h.close reply = (.ok (), h, none) := by
  simp [close, hvac.isValid]

/-- Whatever the close operation answers, it was invoked and the handle is empty. -/
theorem close_armed (harmed : h.Armed) (reply : CloseReply) :
    ∃ result, h.close reply = (result, { kind := h.kind }, some (.closed h.descriptor)) := by
  obtain ⟨hv, operations, hops, hclose⟩ := harmed
  by_cases hreply : reply.result = 0
  · exact ⟨.ok (), by simp [close, hv, hops, closeDescriptorOnce, hclose,
      hreply, release]⟩
  · exact ⟨.error (Error.fromErrno reply.errno "descriptor close failed"),
      by simp [close, hv, hops, closeDescriptorOnce, hclose, hreply, release]⟩

end

/-- What a call does to the handles that own something. -/
inductive Transfer (w w' : World) : Option Event → Prop
  | idle (hsame : w'.owning = w.owning) : Transfer w w' none
  | adopted (h : Handle) (hfew : w.holders h.descriptor ≤ 1)
      (hadded : w'.owning = h ::ₘ w.owning) : Transfer w w' (some (.adopted h.descriptor))
  | gaveUp (h : Handle) (event : Event)
      (hevent : event = .closed h.descriptor ∨ event = .released h.descriptor)
      (hsole : w.holders h.descriptor ≤ 1) (hgone : w.owning = h ::ₘ w'.owning) :
      Transfer w w' (some event)
  | merged (h : Handle) (first : Handle) (hfirst : first ∈ w'.owning)
      (hequal : first.descriptor = h.descriptor) (hgone : w.owning = h ::ₘ w'.owning) :
      Transfer w w' (some (.merged h.descriptor))

/-- One handle gives way to an empty one, or to none. -/
def World.Loses (w w' : World) (h : Handle) : Prop :=
  ∃ rest, w.handles.values = h ::ₘ rest ∧
    (w'.handles.values = rest ∨ ∃ kind, w'.handles.values = { kind := kind } ::ₘ rest)

section

variable {w w' : World} {h other : Handle} {i target source : ℕ}

theorem owning_push (t : Table Handle) (h : Handle) :
    owning ⟨t.push h⟩ = if h.isValid then h ::ₘ owning ⟨t⟩ else owning ⟨t⟩ := by
  simp only [owning, values_push, filter_cons]
  split <;> simp

theorem sound_push (hs : w.Sound) (hnew : h.Vacant ∨ h.Armed) : Sound ⟨w.handles.push h⟩ := by
  intro x hx
  rw [values_push, mem_cons] at hx
  rcases hx with heq | hold
  · rw [heq]
    exact hnew
  · exact hs x hold

theorem sound_of_get? (hs : w.Sound) (hget : w.handles.get? i = some h) : h.Vacant ∨ h.Armed :=
  hs h ((mem_values _ _).mpr ⟨i, hget⟩)

theorem loses_set (hget : w.handles.get? i = some h) (kind : HandleKind) :
    w.Loses ⟨w.handles.set i { kind := kind }⟩ h := by
  obtain ⟨rest, hvals, hset, _⟩ := values_focus hget
  exact ⟨rest, hvals, .inr ⟨kind, hset _⟩⟩

theorem loses_erase (hget : w.handles.get? i = some h) : w.Loses ⟨w.handles.erase i⟩ h := by
  obtain ⟨rest, hvals, _, herase⟩ := values_focus hget
  exact ⟨rest, hvals, .inl herase⟩

/-- The target takes over, so that only its old value is lost. -/
theorem loses_replace (hne : target ≠ source) (htgt : w.handles.get? target = some h)
    (hsrc : w.handles.get? source = some other) (kind : HandleKind) :
    w.Loses ⟨(w.handles.set target other).set source { kind := kind }⟩ h := by
  obtain ⟨rest, hvals, hassign⟩ := values_assign hne htgt hsrc
  exact ⟨rest, hvals, .inr ⟨kind, hassign _⟩⟩

section

variable (hloses : w.Loses w' h)
include hloses

theorem World.Loses.rest :
    ∃ rest, w.handles.values = h ::ₘ rest ∧ w'.owning = rest.filter (fun x => x.isValid) := by
  obtain ⟨rest, hvals, ha | ⟨kind, ha⟩⟩ := hloses
  · exact ⟨rest, hvals, by rw [owning, ha]⟩
  refine ⟨rest, hvals, ?_⟩
  rw [owning, ha, filter_cons_of_neg]
  simp [(vacant_mk kind).isValid]

theorem World.Loses.owning_vacant (hvac : h.Vacant) : w'.owning = w.owning := by
  obtain ⟨rest, hvals, howning⟩ := hloses.rest
  rw [howning, owning, hvals, filter_cons_of_neg]
  simp [hvac.isValid]

theorem World.Loses.owning_armed (harmed : h.Armed) : w.owning = h ::ₘ w'.owning := by
  obtain ⟨rest, hvals, howning⟩ := hloses.rest
  rw [howning, owning, hvals, filter_cons_of_pos]
  exact harmed.1

theorem World.Loses.sound (hs : w.Sound) : w'.Sound := by
  obtain ⟨rest, hvals, ha⟩ := hloses
  have hr : ∀ x ∈ rest, x.Vacant ∨ x.Armed := by
    intro x hx
    apply hs
    rw [hvals]
    exact mem_cons_of_mem hx
  intro x hx
  rcases ha with ha | ⟨kind, ha⟩ <;> rw [ha] at hx
  · exact hr x hx
  rcases mem_cons.mp hx with heq | hmem
  · rw [heq]
    exact .inl (vacant_mk kind)
  · exact hr x hmem

/-- Closing a handle ends its ownership, if it had any. -/
theorem World.Loses.close (hs : h.Vacant ∨ h.Armed) (hsole : w.Sole h) (reply : CloseReply) :
    Transfer w w' (h.close reply).2.2 := by
  rcases hs with hvac | harmed
  · rw [close_vacant hvac]
    exact .idle (hloses.owning_vacant hvac)
  obtain ⟨result, hclose⟩ := close_armed harmed reply
  rw [hclose]
  exact .gaveUp h _ (.inl rfl) (hsole harmed.1) (hloses.owning_armed harmed)

theorem World.Loses.release (hs : h.Vacant ∨ h.Armed) (hsole : w.Sole h) :
    Transfer w w' (if h.isValid then some (.released h.descriptor) else none) := by
  rcases hs with hvac | harmed
  · rw [hvac.isValid]
    exact .idle (hloses.owning_vacant hvac)
  · rw [harmed.1]
    exact .gaveUp h _ (.inr rfl) (hsole harmed.1) (hloses.owning_armed harmed)

end

theorem close_kind (hs : h.Vacant ∨ h.Armed) (reply : CloseReply) :
    (h.close reply).2.1 = { kind := h.kind } := by
  rcases hs with hvac | harmed
  · rw [close_vacant hvac]
    exact hvac
  · obtain ⟨result, hclose⟩ := close_armed harmed reply
    rw [hclose]

theorem closed_moveFrom (hk : h.kind = other.kind) (hs : h.Vacant ∨ h.Armed)
    (ho : other.Vacant ∨ other.Armed) (reply : CloseReply) :
    (h.close reply).2.1.moveFrom other = (other, { kind := other.kind }) := by
  rw [close_kind hs reply]
  exact moveFrom_eq hk ho

/-- Closing the target first does not stop it from taking over, whatever the result. -/
theorem assign_eq (hk : h.kind = other.kind) (hs : h.Vacant ∨ h.Armed)
    (ho : other.Vacant ∨ other.Armed) (reply : CloseReply) :
    h.assign other reply = (other, { kind := other.kind }, (h.close reply).2.2) := by
  simp only [assign, closed_moveFrom hk hs ho reply]

theorem reset_eq (hk : h.kind = other.kind) (hs : h.Vacant ∨ h.Armed)
    (ho : other.Vacant ∨ other.Armed)
    (hdiffer : ¬ (h.isValid = true ∧ h.descriptor = other.descriptor)) (reply : CloseReply) :
    h.reset other reply =
      ((h.close reply).1, other, { kind := other.kind }, (h.close reply).2.2) := by
  have hguard : (h.isValid && other.isValid && h.descriptor == other.descriptor) = false := by
    rw [Bool.eq_false_iff]
    intro hall
    simp only [Bool.and_eq_true, beq_iff_eq] at hall
    exact hdiffer ⟨hall.1.1, hall.2⟩
  simp only [reset, hguard, closed_moveFrom hk hs ho reply]
  rfl

/-- Two valid handles with one descriptor: the replacement gives way, nothing is closed. -/
theorem reset_equal (hv : h.isValid = true) (hequal : h.descriptor = other.descriptor)
    (reply : CloseReply) :
    h.reset other reply = (.ok (), h, { kind := other.kind }, some (.merged other.descriptor)) := by
  have ho : other.isValid = true := by
    rw [isValid, ← hequal]
    exact hv
  simp [reset, release, hv, ho, hequal]

section

variable (hgone : w.owning = h ::ₘ w'.owning)
include hgone

theorem holders_add (d : Int) : w.holders d = w'.holders d + if h.descriptor = d then 1 else 0 := by
  rw [holders_eq, holders_eq, hgone, countP_cons]
  simp

theorem holders_self : w.holders h.descriptor = w'.holders h.descriptor + 1 := by
  rw [holders_add hgone, if_pos rfl]

theorem holders_other {d : Int} (ho : h.descriptor ≠ d) : w.holders d = w'.holders d := by
  rw [holders_add hgone, if_neg ho, Nat.add_zero]

end

theorem holders_pos (howner : h ∈ w.owning) : 0 < w.holders h.descriptor := by
  rw [holders_eq, countP_pos]
  exact ⟨h, howner, by simp⟩

theorem mem_owning (hget : w.handles.get? i = some h) (hv : h.isValid = true) : h ∈ w.owning :=
  mem_filter.mpr ⟨(mem_values _ _).mpr ⟨i, hget⟩, hv⟩

end

/-- What a call delivers, besides what becomes of a descriptor. -/
def Delivers (w : World) (o : Output) (w' : World) : Call → Prop
  | .moveAssign target source _ => ∃ h other, w.handles.get? target = some h ∧
      w.handles.get? source = some other ∧
      (target = source → w' = w ∧ o.event = none) ∧
      (target ≠ source → w'.handles.get? target = some other ∧
        w'.handles.get? source = some { kind := other.kind })
  | .reset target replacement reply => ∃ h other, w.handles.get? target = some h ∧
      w.handles.get? replacement = some other ∧
      (target = replacement → o.result = .ok () ∧ w' = w ∧ o.event = none) ∧
      (target ≠ replacement → h.isValid = true → h.descriptor = other.descriptor →
        o.result = .ok () ∧ o.event = some (.merged h.descriptor) ∧
        w'.handles.get? target = some h ∧
        w'.handles.get? replacement = some { kind := other.kind } ∧
        w'.holders h.descriptor = 1) ∧
      (target ≠ replacement → ¬ (h.isValid = true ∧ h.descriptor = other.descriptor) →
        o.result = (h.close reply).1 ∧ w'.handles.get? target = some other ∧
        w'.handles.get? replacement = some { kind := other.kind })
  | .release handle => ∃ h, w.handles.get? handle = some h ∧ o.descriptor = h.descriptor ∧
      w'.handles.get? handle = some { kind := h.kind }
  | .close handle reply => ∃ h, w.handles.get? handle = some h ∧
      o.result = (h.close reply).1 ∧ w'.handles.get? handle = some { kind := h.kind }
  | _ => True

/-- Everything a legal call does. -/
structure Effect (w : World) (c : Call) (o : Output) (w' : World) : Prop where
  step : w.step c = some (o, w')
  transfer : Transfer w w' o.event
  sound : w'.Sound
  delivers : Delivers w o w' c

section

variable {w : World} {h other : Handle} {i target source : ℕ} {kind : HandleKind}

theorem construct_effect (hs : w.Sound) (kind : HandleKind) :
    ∃ o w', Effect w (.construct kind) o w' := by
  refine ⟨_, _, rfl, .idle ?_, sound_push hs (.inl (vacant_mk kind)), trivial⟩
  rw [owning_push, (vacant_mk kind).isValid]
  rfl

theorem push_transfers (harmed : h.Armed) (hfew : w.holders h.descriptor ≤ 1) :
    Transfer w ⟨w.handles.push h⟩ (some (.adopted h.descriptor)) := by
  refine .adopted h hfew ?_
  rw [owning_push, harmed.1]
  rfl

theorem adopt_effect (hs : w.Sound) {d : Int}
    (hl : w.Legal (.adopt kind d)) : ∃ o w', Effect w (.adopt kind d) o w' := by
  by_cases hd : d < 0
  · refine ⟨{ result := .error invalidDescriptorError }, w, ?_, .idle rfl, hs, trivial⟩
    simp [step, adopt, hd]
  have harmed : Armed ⟨kind, d, some defaultDescriptorOperations⟩ :=
    ⟨by simpa [isValid] using hd, _, rfl, rfl⟩
  have hstep : w.step (.adopt kind d) = some ({ event := some (.adopted d) },
      ⟨w.handles.push ⟨kind, d, some defaultDescriptorOperations⟩⟩) := by
    simp [step, adopt, hd]
  exact ⟨_, _, hstep, push_transfers harmed hl, sound_push hs (.inr harmed), trivial⟩

theorem adoptWith_effect (hs : w.Sound) {d : Int}
    {operations : DescriptorOperations} (hl : w.Legal (.adoptWith kind d operations)) :
    ∃ o w', Effect w (.adoptWith kind d operations) o w' := by
  obtain ⟨hd, hclose, hfew⟩ := hl
  have harmed : Armed ⟨kind, d, some operations⟩ :=
    ⟨by simpa [isValid] using hd, _, rfl, hclose⟩
  exact ⟨_, _, rfl, push_transfers harmed hfew, sound_push hs (.inr harmed), trivial⟩

theorem moveConstruct_step (hget : w.handles.get? source = some other)
    (ho : other.Vacant ∨ other.Armed) :
    w.step (.moveConstruct source) =
      some ({}, ⟨(w.handles.set source { kind := other.kind }).push other⟩) := by
  have hmove : moveFrom { kind := other.kind } other = (other, { kind := other.kind }) :=
    moveFrom_eq rfl ho
  simp [step, hget, hmove]

theorem moveConstruct_effect (hs : w.Sound) (hl : w.Legal (.moveConstruct source)) :
    ∃ o w', Effect w (.moveConstruct source) o w' := by
  obtain ⟨other, hget⟩ := hl
  have ho := sound_of_get? hs hget
  have hloses := loses_set hget other.kind
  refine ⟨_, _, moveConstruct_step hget ho, .idle ?_, sound_push (hloses.sound hs) ho, trivial⟩
  rw [owning_push]
  rcases ho with hvac | harmed
  · rw [hvac.isValid]
    exact hloses.owning_vacant hvac
  · rw [harmed.1]
    exact (hloses.owning_armed harmed).symm

/-- The two handles after the target took over. -/
theorem get?_replace (hne : target ≠ source) (htgt : w.handles.get? target = some h)
    (hsrc : w.handles.get? source = some other) (a b : Handle) :
    ((w.handles.set target a).set source b).get? target = some a ∧
      ((w.handles.set target a).set source b).get? source = some b := by
  constructor
  · rw [get?_set_ne _ _ hne, get?_set_self a htgt]
  · apply get?_set_self (a := other)
    rw [get?_set_ne _ _ (Ne.symm hne), hsrc]

theorem moveAssign_step (hne : target ≠ source) (htgt : w.handles.get? target = some h)
    (hsrc : w.handles.get? source = some other) (hk : h.kind = other.kind)
    (hh : h.Vacant ∨ h.Armed) (ho : other.Vacant ∨ other.Armed) (reply : CloseReply) :
    w.step (.moveAssign target source reply) = some ({ event := (h.close reply).2.2 },
        ⟨(w.handles.set target other).set source { kind := other.kind }⟩) := by
  have hassign := assign_eq hk hh ho reply
  simp [step, htgt, hsrc, hne, hassign]

variable {reply : CloseReply}

theorem moveAssign_effect (hs : w.Sound) (hl : w.Legal (.moveAssign target source reply)) :
    ∃ o w', Effect w (.moveAssign target source reply) o w' := by
  obtain ⟨h, other, htgt, hsrc, hk, hsole⟩ := hl
  by_cases hne : target = source
  · refine ⟨{}, w, ?_, .idle rfl, hs, h, other, htgt, hsrc,
      fun _ => ⟨rfl, rfl⟩, fun hdiffer => absurd hne hdiffer⟩
    simp [step, hsrc, hne]
  have hh := sound_of_get? hs htgt
  have hstep := moveAssign_step hne htgt hsrc hk hh (sound_of_get? hs hsrc) reply
  have hloses := loses_replace hne htgt hsrc other.kind
  exact ⟨_, _, hstep, hloses.close hh (hsole hne) reply, hloses.sound hs,
    h, other, htgt, hsrc, fun hsame => absurd hsame hne,
    fun _ => get?_replace hne htgt hsrc _ _⟩

/-- The replacement gives way, and the target is the one owner left. -/
theorem reset_equal_effect (hs : w.Sound) (hfew : ∀ d, w.holders d ≤ 2) (hne : target ≠ source)
    (htgt : w.handles.get? target = some h) (hsrc : w.handles.get? source = some other)
    (hv : h.isValid = true) (hequal : h.descriptor = other.descriptor) :
    ∃ o w', Effect w (.reset target source reply) o w' := by
  have hreset := reset_equal hv hequal reply
  have hloses := loses_set hsrc other.kind
  have ho : other.Armed := by
    rcases sound_of_get? hs hsrc with hvac | harmed
    · have hinv := hvac.isValid
      rw [isValid, ← hequal] at hinv
      rw [isValid, hinv] at hv
      cases hv
    · exact harmed
  have hgone := hloses.owning_armed ho
  have hk : (w.handles.set source { kind := other.kind }).get? target = some h := by
    rw [get?_set_ne _ _ hne, htgt]
  have howner := mem_owning (w := ⟨w.handles.set source { kind := other.kind }⟩) hk hv
  have hone : holders ⟨w.handles.set source { kind := other.kind }⟩ h.descriptor = 1 := by
    have hadd := holders_self hgone
    have hpos := holders_pos howner
    have hle := hfew h.descriptor
    rw [← hequal] at hadd
    omega
  have hstep : w.step (.reset target source reply) =
      some ({ result := .ok (), event := some (.merged other.descriptor) },
        ⟨w.handles.set source { kind := other.kind }⟩) := by
    simp [step, htgt, hsrc, hne, hreset, set_get?_self htgt]
  refine ⟨_, _, hstep, .merged other h howner hequal hgone, hloses.sound hs,
    h, other, htgt, hsrc, fun hsame => absurd hsame hne, ?_, ?_⟩
  · intro _ _ _
    exact ⟨rfl, by rw [hequal], hk, get?_set_self _ hsrc, hone⟩
  · intro _ hdiffer
    exact absurd ⟨hv, hequal⟩ hdiffer

theorem reset_effect (hs : w.Sound) (hfew : ∀ d, w.holders d ≤ 2)
    (hl : w.Legal (.reset target source reply)) :
    ∃ o w', Effect w (.reset target source reply) o w' := by
  obtain ⟨h, other, htgt, hsrc, hk, hsole⟩ := hl
  by_cases hne : target = source
  · refine ⟨{}, w, ?_, .idle rfl, hs, h, other, htgt, hsrc,
      fun _ => ⟨rfl, rfl, rfl⟩, fun hdiffer => absurd hne hdiffer,
      fun hdiffer => absurd hne hdiffer⟩
    simp [step, hsrc, hne]
  by_cases hequal : h.isValid = true ∧ h.descriptor = other.descriptor
  · exact reset_equal_effect hs hfew hne htgt hsrc hequal.1 hequal.2
  have hh := sound_of_get? hs htgt
  have hreset := reset_eq hk hh (sound_of_get? hs hsrc) hequal reply
  have hloses := loses_replace hne htgt hsrc other.kind
  have halone : w.Sole h := by
    intro hv
    rcases hsole hne with hsame | halone
    · exact absurd ⟨hv, hsame⟩ hequal
    · exact halone hv
  have hstep : w.step (.reset target source reply) =
      some ({ result := (h.close reply).1, event := (h.close reply).2.2 },
        ⟨(w.handles.set target other).set source { kind := other.kind }⟩) := by
    simp [step, htgt, hsrc, hne, hreset]
  exact ⟨_, _, hstep, hloses.close hh halone reply, hloses.sound hs,
    h, other, htgt, hsrc, fun hsame => absurd hsame hne,
    fun _ hv hsame => absurd ⟨hv, hsame⟩ hequal,
    fun _ _ => ⟨rfl, get?_replace hne htgt hsrc _ _⟩⟩

theorem release_effect (hs : w.Sound) (hl : w.Legal (.release i)) :
    ∃ o w', Effect w (.release i) o w' := by
  obtain ⟨h, hget, hsole⟩ := hl
  have hloses := loses_set hget h.kind
  have hstep : w.step (.release i) =
      some (⟨.ok (), h.descriptor, if h.isValid then some (.released h.descriptor) else none⟩,
        ⟨w.handles.set i { kind := h.kind }⟩) := by
    simp [step, hget, release]
  exact ⟨_, _, hstep, hloses.release (sound_of_get? hs hget) hsole, hloses.sound hs,
    h, hget, rfl, get?_set_self _ hget⟩

theorem close_step (hget : w.handles.get? i = some h) (hh : h.Vacant ∨ h.Armed)
    (reply : CloseReply) :
    w.step (.close i reply) = some ({ result := (h.close reply).1, event := (h.close reply).2.2 },
      ⟨w.handles.set i { kind := h.kind }⟩) := by
  simp [step, hget, close_kind hh reply]

theorem close_effect (hs : w.Sound) (hl : w.Legal (.close i reply)) :
    ∃ o w', Effect w (.close i reply) o w' := by
  obtain ⟨h, hget, hsole⟩ := hl
  have hh := sound_of_get? hs hget
  have hloses := loses_set hget h.kind
  exact ⟨_, _, close_step hget hh reply, hloses.close hh hsole reply, hloses.sound hs,
    h, hget, rfl, get?_set_self _ hget⟩

theorem destroy_step (hget : w.handles.get? i = some h) (reply : CloseReply) :
    w.step (.destroy i reply) = some ({ event := (h.close reply).2.2 }, ⟨w.handles.erase i⟩) := by
  simp [step, hget]

theorem destroy_effect (hs : w.Sound) (hl : w.Legal (.destroy i reply)) :
    ∃ o w', Effect w (.destroy i reply) o w' := by
  obtain ⟨h, hget, hsole⟩ := hl
  have hloses := loses_erase hget
  exact ⟨_, _, destroy_step hget reply, hloses.close (sound_of_get? hs hget) hsole reply,
    hloses.sound hs, trivial⟩

theorem legal_effect (hs : w.Sound) (hfew : ∀ d, w.holders d ≤ 2) {c : Call}
    (hl : w.Legal c) : ∃ o w', Effect w c o w' := by
  cases c with
  | construct kind => exact construct_effect hs kind
  | adopt kind d => exact adopt_effect hs hl
  | adoptWith kind d operations => exact adoptWith_effect hs hl
  | moveConstruct source => exact moveConstruct_effect hs hl
  | moveAssign target source reply => exact moveAssign_effect hs hl
  | reset target replacement reply => exact reset_effect hs hfew hl
  | release handle => exact release_effect hs hl
  | close handle reply => exact close_effect hs hl
  | destroy handle reply => exact destroy_effect hs hl

end

end Laghu.Handles
