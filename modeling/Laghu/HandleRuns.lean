import Laghu.HandleEffects

/-!
What becomes of a descriptor over a whole run. Each descriptor goes through the states
free, owned and shared; only its one owner can close it or give it up, and a close that
fails still ends the ownership.
-/

namespace Laghu.Handles

open Contract List Option World
open ObjectTable (Table)
open Runs (Run)

/-- `shared` is the time between a second adoption and the `reset` that undoes it. -/
inductive Ownership
  | free | owned | shared
  deriving DecidableEq

namespace Ownership

def owners : Ownership → ℕ
  | .free => 0
  | .owned => 1
  | .shared => 2

def after : Ownership → Event → Option Ownership
  | .free, .adopted _ => some .owned
  | .owned, .adopted _ => some .shared
  | .shared, .merged _ => some .owned
  | .owned, .closed _ => some .free
  | .owned, .released _ => some .free
  | _, _ => none

end Ownership

/-- The history of one descriptor, oldest event first. -/
def eventsOf (d : Int) (trace : List (Call × Output)) : List Event :=
  (trace.filterMap fun e => e.2.event).filter fun e => e.descriptor == d

/-- `none` is a history in which somebody closed or gave up what was not theirs. -/
def lifecycle (d : Int) (trace : List (Call × Output)) : Option Ownership :=
  (eventsOf d trace).foldlM Ownership.after .free

theorem eventsOf_append (d : Int) (trace : List (Call × Output)) (c : Call) (o : Output) :
    eventsOf d (trace ++ [(c, o)]) =
      eventsOf d trace ++ o.event.toList.filter fun e => e.descriptor == d := by
  rw [eventsOf, eventsOf, filterMap_append, filter_append]
  cases he : o.event <;> simp [he]

section

variable {w w' : World} {event : Event} {d : Int} {o : Ownership}

theorem Ownership.eq_of_owners {o o' : Ownership} (h : o.owners = o'.owners) : o = o' := by
  cases o <;> cases o' <;> first | rfl | cases h

/-- A call leaves every other descriptor to its owners. -/
theorem Transfer.other (htransfer : Transfer w w' (some event)) (ho : event.descriptor ≠ d) :
    w'.holders d = w.holders d := by
  cases htransfer with
  | adopted h hfew hadded => exact holders_other hadded ho
  | gaveUp h event he hsole hgone =>
    have hdesc : h.descriptor ≠ d := by
      rcases he with heq | heq <;> rw [heq] at ho <;> exact ho
    exact (holders_other hgone hdesc).symm
  | merged h first hf hequal hgone => exact (holders_other hgone ho).symm

/-- Only an owner without a rival closes or gives up a descriptor, and only a second owner
gives way. -/
theorem Transfer.own (htransfer : Transfer w w' (some event))
    (howners : o.owners = w.holders event.descriptor) :
    ∃ o', o.after event = some o' ∧ o'.owners = w'.holders event.descriptor := by
  cases htransfer with
  | adopted h hfew hadded =>
    have hadd := holders_self hadded
    change o.owners = w.holders h.descriptor at howners
    rw [← howners] at hfew hadd
    cases o with
    | free => exact ⟨.owned, rfl, hadd.symm⟩
    | owned => exact ⟨.shared, rfl, hadd.symm⟩
    | shared => exact absurd hfew (by decide)
  | gaveUp h event he hsole hgone =>
    have hdesc : event.descriptor = h.descriptor := by
      rcases he with heq | heq <;> rw [heq] <;> rfl
    have hadd := holders_self hgone
    rw [hdesc] at howners ⊢
    have ho : o = .owned := by
      apply Ownership.eq_of_owners
      change o.owners = 1
      omega
    refine ⟨.free, ?_, ?_⟩
    · rcases he with heq | heq <;> rw [heq, ho] <;> rfl
    · change 0 = w'.holders h.descriptor
      omega
  | merged h first hf hequal hgone =>
    have hpos := holders_pos hf
    have hadd := holders_self hgone
    rw [hequal] at hpos
    change o.owners = w.holders h.descriptor at howners
    rw [← howners] at hadd
    cases o with
    | free => exact absurd hadd (by change ¬ 0 = _; omega)
    | owned => exact absurd hadd (by change ¬ 1 = _; omega)
    | shared => exact ⟨.owned, rfl, Nat.succ_injective hadd⟩

/-- A call moves every descriptor along its states. -/
theorem Transfer.advances {event : Option Event} (htransfer : Transfer w w' event)
    (howners : o.owners = w.holders d) :
    ∃ o', (event.toList.filter fun e => e.descriptor == d).foldlM Ownership.after o = some o' ∧
      o'.owners = w'.holders d := by
  cases event with
  | none =>
    cases htransfer with
    | idle hsame => exact ⟨o, rfl, by rw [howners, holders_eq, holders_eq, hsame]⟩
  | some event =>
    by_cases hd : event.descriptor = d
    · rw [← hd] at howners ⊢
      obtain ⟨o', ha, hholders⟩ := htransfer.own howners
      exact ⟨o', by simp [ha], hholders⟩
    · exact ⟨o, by simp [hd], howners.trans (htransfer.other hd).symm⟩

end

/-- What the calls so far say about the handles. -/
structure Recorded (trace : List (Call × Output)) (w : World) : Prop where
  sound : w.Sound
  lifecycle : ∀ d, ∃ o, lifecycle d trace = some o ∧ o.owners = w.holders d

section

variable {trace : List (Call × Output)} {w w' : World} {c : Call} {o : Output}

theorem Recorded.few (hrec : Recorded trace w) (d : Int) : w.holders d ≤ 2 := by
  obtain ⟨o, _, howners⟩ := hrec.lifecycle d
  rw [← howners]
  cases o <;> decide

theorem Recorded.next (hrec : Recorded trace w) (heff : Effect w c o w') :
    Recorded (trace ++ [(c, o)]) w' := by
  refine ⟨heff.sound, fun d => ?_⟩
  obtain ⟨before, hpre, howners⟩ := hrec.lifecycle d
  obtain ⟨after, ha, hholders⟩ := heff.transfer.advances howners
  refine ⟨after, ?_, hholders⟩
  rw [Handles.lifecycle] at hpre ⊢
  rw [eventsOf_append, foldlM_append, hpre]
  exact ha

theorem run_recorded (hrun : Run system {} trace w) : Recorded trace w := by
  apply hrun.history
  · intro trace w c o w' hrec hl hstep
    obtain ⟨o', w'', heff⟩ := legal_effect hrec.sound hrec.few hl
    have hsame : some (o, w') = some (o', w'') := hstep.symm.trans heff.step
    cases hsame
    exact hrec.next heff
  · refine ⟨fun h hmem => ?_, fun d => ⟨.free, rfl, rfl⟩⟩
    cases hmem

/-- Every adoption is accounted for: the descriptor was closed, given up, merged with an
earlier adoption, or still has its owner. -/
theorem adoptions_balance {d : Int} {events : List Event} {before after : Ownership}
    (hown : ∀ e ∈ events, e.descriptor = d)
    (hfold : events.foldlM Ownership.after before = some after) :
    before.owners + events.count (.adopted d) =
      events.count (.closed d) + events.count (.released d) + events.count (.merged d) +
        after.owners := by
  induction events generalizing before with
  | nil =>
    cases hfold
    simp
  | cons e events ih =>
    rw [foldlM_cons, bind_eq_bind, bind_eq_some_iff] at hfold
    obtain ⟨middle, ha, hr⟩ := hfold
    have hr := ih (fun e he => hown e (mem_cons_of_mem _ he)) hr
    have hd := hown e mem_cons_self
    cases before <;> cases e <;> cases ha <;>
      simp_all [Event.descriptor, Ownership.owners] <;> omega

/-- Nobody owns a descriptor that was closed or given up, until it is adopted again. -/
theorem adopted_of_gaveUp {events before rest : List Event} {last next : Event}
    {o o' : Ownership} (hfold : events.foldlM Ownership.after o = some o')
    (hevents : events = before ++ last :: next :: rest)
    (hl : ∃ d, last = .closed d ∨ last = .released d) : ∃ d, next = .adopted d := by
  rw [hevents, foldlM_append, bind_eq_bind, bind_eq_some_iff] at hfold
  obtain ⟨middle, _, hfold⟩ := hfold
  rw [foldlM_cons, bind_eq_bind, bind_eq_some_iff] at hfold
  obtain ⟨freed, hfreed, hfold⟩ := hfold
  rw [foldlM_cons, bind_eq_bind, bind_eq_some_iff] at hfold
  obtain ⟨taken, htaken, _⟩ := hfold
  have hfree : freed = .free := by
    obtain ⟨d, heq | heq⟩ := hl <;> rw [heq] at hfreed <;> cases middle <;> cases hfreed <;> rfl
  rw [hfree] at htaken
  cases next with
  | adopted d => exact ⟨d, rfl⟩
  | closed d | released d | merged d => cases htaken

theorem descriptor_of_mem {d : Int} {e : Event} (hmem : e ∈ eventsOf d trace) :
    e.descriptor = d := by
  simpa using (mem_filter.mp hmem).2

theorem holders_of_gone (hgone : ∀ i, w.handles.get? i = none) (d : Int) : w.holders d = 0 := by
  have hvals : w.handles.values = 0 := by
    apply Multiset.eq_zero_of_forall_notMem
    intro h hmem
    obtain ⟨i, hget⟩ := (Table.mem_values _ _).mp hmem
    rw [hgone i] at hget
    cases hget
  rw [holders, hvals, Multiset.countP_zero]

/-- Handles close what they own once. In every run each descriptor moves from free to owned
and back, by way of shared only for a second adoption that `reset` undoes; what was closed
or released is not touched again before the next adoption; every adoption ends in one close
when all handles are gone, unless it was released or merged; and a close that fails changes
nothing of this, nor does it stop a replacement from being taken over. -/
theorem descriptors_closed_once (hrun : Run World.system {} trace w) :
    (∀ d, ∃ o, lifecycle d trace = some o ∧ o.owners = w.holders d) ∧
      (∀ d before last next rest, eventsOf d trace = before ++ last :: next :: rest →
        last = .closed d ∨ last = .released d → next = .adopted d) ∧
      (∀ d, (eventsOf d trace).count (.adopted d) =
        (eventsOf d trace).count (.closed d) + (eventsOf d trace).count (.released d) +
          (eventsOf d trace).count (.merged d) + w.holders d) ∧
      ((∀ i, w.handles.get? i = none) → ∀ d, .released d ∉ eventsOf d trace →
        (eventsOf d trace).count (.closed d) + (eventsOf d trace).count (.merged d) =
          (eventsOf d trace).count (.adopted d)) ∧
      ∀ c, w.Legal c → ∃ o w', w.step c = some (o, w') ∧ Delivers w o w' c := by
  have hrecorded := run_recorded hrun
  have hbalance : ∀ d, (eventsOf d trace).count (.adopted d) =
      (eventsOf d trace).count (.closed d) + (eventsOf d trace).count (.released d) +
        (eventsOf d trace).count (.merged d) + w.holders d := by
    intro d
    obtain ⟨o, hfold, howners⟩ := hrecorded.lifecycle d
    have hbalance := adoptions_balance (fun _ he => descriptor_of_mem he) hfold
    rw [← howners, ← hbalance]
    exact (Nat.zero_add _).symm
  refine ⟨hrecorded.lifecycle, ?_, hbalance, ?_, ?_⟩
  · intro d before last next rest hevents hlast
    obtain ⟨o, hfold, _⟩ := hrecorded.lifecycle d
    obtain ⟨d', hnext⟩ := adopted_of_gaveUp hfold hevents ⟨d, hlast⟩
    have hmem : next ∈ eventsOf d trace := by
      rw [hevents]
      simp
    have hd := descriptor_of_mem hmem
    rw [hnext] at hd ⊢
    exact congrArg Event.adopted hd
  · intro hgone d hkept
    have hd := hbalance d
    rw [holders_of_gone hgone d, List.count_eq_zero_of_not_mem hkept] at hd
    omega
  · intro c hlegal
    obtain ⟨o, w', heffect⟩ := legal_effect hrecorded.sound hrecorded.few hlegal
    exact ⟨o, w', heffect.step, heffect.delivers⟩

end

/-- A second adoption that is undone, a replacement whose close of the old descriptor fails,
a released socket, and the end of every handle. -/
def sampleTrace : List (Call × Output) :=
  [(.adoptWith .file 3 ⟨7, true⟩, { event := some (.adopted 3) }),
    (.adopt .file 3, { event := some (.adopted 3) }),
    (.reset 0 1 ⟨0, 0⟩, { event := some (.merged 3) }),
    (.adopt .file 4, { event := some (.adopted 4) }),
    (.reset 0 2 ⟨-1, 5⟩, { result := .error (Error.fromErrno 5 "descriptor close failed"),
                           event := some (.closed 3) }),
    (.moveAssign 0 0 ⟨0, 0⟩, {}),
    (.adopt .socket 5, { event := some (.adopted 5) }),
    (.release 3, { descriptor := 5, event := some (.released 5) }),
    (.destroy 0 ⟨0, 0⟩, { event := some (.closed 4) }),
    (.destroy 1 ⟨0, 0⟩, {}),
    (.destroy 2 ⟨0, 0⟩, {}),
    (.destroy 3 ⟨0, 0⟩, {})]

theorem sampleTrace_run : Run system {} sampleTrace ⟨⟨[none, none, none, none]⟩⟩ :=
  .cons ⟨by decide, rfl, by decide⟩ rfl <|
  .cons (show holders _ 3 ≤ 1 by decide) rfl <|
  .cons ⟨_, _, rfl, rfl, rfl, fun _ => .inl rfl⟩ rfl <|
  .cons (show holders _ 4 ≤ 1 by decide) rfl <|
  .cons ⟨_, _, rfl, rfl, rfl, fun _ => .inr fun _ => by decide⟩ rfl <|
  .cons ⟨_, _, rfl, rfl, rfl, fun hne => absurd rfl hne⟩ rfl <|
  .cons (show holders _ 5 ≤ 1 by decide) rfl <|
  .cons ⟨_, rfl, fun _ => by decide⟩ rfl <|
  .cons ⟨_, rfl, fun _ => by decide⟩ rfl <|
  .cons ⟨_, rfl, fun _ => by decide⟩ rfl <|
  .cons ⟨_, rfl, fun _ => by decide⟩ rfl <|
  .cons ⟨_, rfl, fun _ => by decide⟩ rfl <|
  .refl _

/-- Descriptor 3 was adopted twice, merged once and closed once, though the close failed. -/
theorem descriptors_closed_once_failing :
    Run World.system {} sampleTrace ⟨⟨[none, none, none, none]⟩⟩ ∧
      (eventsOf 3 sampleTrace).count (.adopted 3) = 2 ∧
      (eventsOf 3 sampleTrace).count (.closed 3) + (eventsOf 3 sampleTrace).count (.merged 3) =
        2 := by
  obtain ⟨_, _, _, hgone, _⟩ := descriptors_closed_once sampleTrace_run
  have hempty : ∀ i, (⟨[none, none, none, none]⟩ : Table Handle).get? i = none := by
    intro i
    rcases i with _ | _ | _ | _ | i <;> rfl
  exact ⟨sampleTrace_run, by decide, hgone hempty 3 (by decide)⟩

end Laghu.Handles
