import Laghu.MappedRegionSteps

/-!
What becomes of mappings and their descriptors over a whole run. A mapping is used only
while it is live and ends with its first successful unmapping; a region and its descriptor
stay together, whatever the system answers.
-/

namespace Laghu.MappedRegions

open Contract Handles Option List
open ObjectTable (Table)
open Runs (Run)

/-- What a region owns: a mapping with its size and access, and a descriptor. -/
structure Holding where
  mapping : Mapping
  size : Size
  access : MappingAccess
  descriptor : Int
  deriving DecidableEq

namespace World

def held (w : World) (region : ℕ) : Option Holding := do
  let r ← w.regions.get? region
  let mapping ← r.address
  let h ← w.handles.handles.get? r.file
  return ⟨mapping, r.size, r.access, h.descriptor⟩

/-- No other region has the mapping, and no other handle has the descriptor. -/
def SoleOwner (w : World) (owner : ℕ) (x : Holding) : Prop :=
  w.held owner = some x ∧ w.handles.holders x.descriptor = 1 ∧
    ∀ j r m, w.regions.get? j = some r → r.address = some m → m.id = x.mapping.id → j = owner

end World

/-- What a call keeps. -/
def Keeps (w : World) (o : Output) (w' : World) : Call → Prop
  | .mapFile _ _ _ _ _ => ∀ e, o = .mapped (.error e) → w' = w
  | .mapWithOperations _ _ _ _ _ _ => ∀ e, o = .mapped (.error e) → w' = w
  | .release _ unmap => unmap.result ≠ 0 → w'.regions = w.regions ∧ w'.handles = w.handles
  | .close _ unmap _ => unmap.result ≠ 0 → w'.regions = w.regions ∧ w'.handles = w.handles
  | .moveAssign target source _ _ => ∀ x, w.held source = some x →
      ∃ owner, (owner = target ∨ owner = source) ∧ w'.SoleOwner owner x
  | _ => True

section

variable {w w' : World} {i : ℕ} {x : Holding}

theorem held_eq_some : w.held i = some x ↔ ∃ r h, w.regions.get? i = some r ∧
    r.address = some x.mapping ∧ w.handles.handles.get? r.file = some h ∧
    r.size = x.size ∧ r.access = x.access ∧ h.descriptor = x.descriptor := by
  unfold World.held
  simp only [bind_eq_bind, bind_eq_some_iff]
  constructor
  · rintro ⟨r, hget, mapping, haddr, h, hfile, heq⟩
    cases heq
    exact ⟨r, h, hget, haddr, hfile, rfl, rfl, rfl⟩
  rintro ⟨r, h, hget, haddr, hfile, hsize, haccess, hdesc⟩
  refine ⟨r, hget, x.mapping, haddr, h, hfile, ?_⟩
  rw [hsize, haccess, hdesc]
  rfl

theorem Sound.soleOwner (hs : Sound w) (hheld : w.held i = some x) : w.SoleOwner i x := by
  obtain ⟨r, h, hget, haddr, hfile, _, _, hdesc⟩ := held_eq_some.mp hheld
  obtain ⟨h', hfile', _, _, harmed⟩ := hs.paired.owns i r hget
  obtain rfl : h = h' := Option.some.inj (hfile.symm.trans hfile')
  have hv := (harmed (by rw [haddr]; exact some_ne_none _)).1
  have hpos := holders_pos (mem_owning hfile hv)
  have hfew := hs.filed.few x.descriptor
  rw [hdesc] at hpos
  refine ⟨hheld, by omega, ?_⟩
  intro j s m hreg hmapping hid
  exact hs.tracked.unique j i s r m x.mapping hreg hget hmapping haddr hid

theorem Arrived.held {s : MappedRegion} {source owner : ℕ} (harrived : Arrived w w' s owner)
    (hsrc : w.regions.get? source = some s) (hheld : w.held source = some x) :
    w'.held owner = some x := by
  obtain ⟨r, hget, hsame, hhandle⟩ := harrived
  obtain ⟨s', h, hget', haddr, hfile, hsize, haccess, hdesc⟩ := held_eq_some.mp hheld
  obtain rfl : s = s' := Option.some.inj (hsrc.symm.trans hget')
  rw [← hsame] at haddr hsize haccess
  exact held_eq_some.mpr ⟨r, h, hget, haddr, hhandle.trans hfile, hsize, haccess, hdesc⟩

/-- Every legal call returns, and leaves the regions in order. -/
theorem legal_step (hs : Sound w) {c : Call} (hl : w.Legal c) :
    ∃ o w', w.step c = some (o, w') ∧ Sound w' ∧ Keeps w o w' c := by
  cases c with
  | handle call =>
    obtain ⟨o, w', hrun, hs', _⟩ := hs.handle hl
    exact ⟨.done o.result, w', by simp [World.step, hrun], hs', trivial⟩
  | construct =>
    obtain ⟨w', hrun, hs', _⟩ := construct_spec hs
    exact ⟨.done (.ok ()), w', by simp [World.step, hrun], hs', trivial⟩
  | mapFile file size access offset reply =>
    obtain ⟨result, w', hrun, hs', _, herror⟩ := mapWithOperations_spec hs hl size
      access offset defaultMappingOperations reply
    refine ⟨.mapped result, w', by simp [World.step, World.mapFile, hrun], hs', ?_⟩
    intro e he
    exact herror e (Output.mapped.inj he)
  | mapWithOperations file size access offset operations reply =>
    obtain ⟨result, w', hrun, hs', _, herror⟩ := mapWithOperations_spec hs hl size
      access offset operations reply
    refine ⟨.mapped result, w', by simp [World.step, hrun], hs', ?_⟩
    intro e he
    exact herror e (Output.mapped.inj he)
  | mapSharedMemory name size access opened reply close =>
    obtain ⟨result, w', hrun, hs'⟩ :=
      mapSharedMemory_spec hs name size access hl reply close
    exact ⟨.mapped result, w', by simp [World.step, hrun], hs', trivial⟩
  | view region =>
    obtain ⟨r, hget⟩ := hl
    cases haddr : r.address with
    | none | some m =>
      exact ⟨_, w, by simp [World.step, World.view, hget, haddr]; rfl, hs, trivial⟩
  | flush region offset length mode page reply =>
    obtain ⟨r, hget⟩ := hl
    obtain ⟨result, w', hrun, hs'⟩ := flush_spec hs hget offset length mode page reply
    exact ⟨.done result, w', by simp [World.step, hrun], hs', trivial⟩
  | protect region access reply =>
    obtain ⟨r, hget⟩ := hl
    obtain ⟨result, w', hrun, hs'⟩ := protect_spec hs hget access reply
    exact ⟨.done result, w', by simp [World.step, hrun], hs', trivial⟩
  | release region unmap =>
    obtain ⟨r, hget⟩ := hl
    obtain ⟨result, w', hrun, hs', hcases⟩ := release_spec hs hget unmap
    refine ⟨.released result, w', by simp [World.step, hrun], hs', ?_⟩
    intro hf
    rcases hcases with ⟨_, _, hregs, hhandles⟩ | ⟨_, _, _, _, hunmap⟩
    · exact ⟨hregs, hhandles⟩
    · exact absurd hunmap hf
  | close region unmap close =>
    obtain ⟨r, hget⟩ := hl
    obtain ⟨result, w', hrun, hs', hcases⟩ := close_spec hs hget unmap close
    refine ⟨.done result, w', by simp [World.step, hrun], hs', ?_⟩
    intro hf
    rcases hcases with ⟨⟨hregs, hhandles⟩, _⟩ | ⟨_, hunmap⟩
    · exact ⟨hregs, hhandles⟩
    · exact absurd hunmap hf
  | moveConstruct source =>
    obtain ⟨s, hget⟩ := hl
    obtain ⟨w', hrun, hs'⟩ := moveConstruct_spec hs hget
    exact ⟨.done (.ok ()), w', by simp [World.step, hrun], hs', trivial⟩
  | moveAssign target source unmap close =>
    obtain ⟨⟨t, htgt⟩, s, hsrc⟩ := hl
    obtain ⟨w', hrun, hs', harrived⟩ := moveAssign_spec hs htgt hsrc unmap close
    refine ⟨.done (.ok ()), w', by simp [World.step, hrun], hs', ?_⟩
    intro x hheld
    rcases harrived with harrived | harrived
    · exact ⟨target, .inl rfl, hs'.soleOwner (harrived.held hsrc hheld)⟩
    · exact ⟨source, .inr rfl, hs'.soleOwner (harrived.held hsrc hheld)⟩
  | destroy region unmap close member =>
    obtain ⟨r, hget⟩ := hl
    obtain ⟨w', hrun, hs'⟩ := destroy_spec hs hget unmap close member
    exact ⟨.done (.ok ()), w', by simp [World.step, hrun], hs', trivial⟩

theorem sound_empty : Sound {} := by
  refine ⟨⟨.refl _, fun d => Nat.zero_le 1⟩, ⟨?_, ?_⟩, ⟨?_, ?_, ?_, ?_⟩⟩
  · intro i r hget
    cases hget
  · intro i j r r' hget
    cases hget
  · exact fun id => ⟨.unborn, rfl⟩
  · exact fun id _ => rfl
  · intro i r m hget
    cases hget
  · intro i j r r' m m' hget
    cases hget

theorem run_sound {trace : List (Call × Output)} (hrun : Run World.system {} trace w) :
    Sound w := by
  apply hrun.invariant
  · intro w c o w' hs hl hstep
    obtain ⟨o', w'', hstep', hs', _⟩ := legal_step hs hl
    have hsame : some (o, w') = some (o', w'') := hstep.symm.trans hstep'
    cases hsame
    exact hs'
  · exact sound_empty

/-- Nothing is done with a mapping that is gone. -/
theorem phase_gone {id : ℕ} {before after : List Event} {p : Phase}
    (hp : phase id (before ++ .unmap id true :: after) = some p) : ∀ e ∈ after, e.id ≠ id := by
  have hself : (Event.unmap id true).id = id := rfl
  unfold phase at hp
  rw [filter_append, filter_cons_of_pos (by simp [hself]), foldlM_append,
    bind_eq_bind, bind_eq_some_iff] at hp
  obtain ⟨q, _, hp⟩ := hp
  rw [foldlM_cons, bind_eq_bind, bind_eq_some_iff] at hp
  obtain ⟨freed, hfreed, hp⟩ := hp
  have hgone : freed = .gone := by
    cases q <;> cases hfreed
    rfl
  rw [hgone] at hp
  intro e hmem heq
  cases hr : after.filter fun e => e.id == id with
  | nil =>
    have hn := filter_eq_nil_iff.mp hr e hmem
    exact hn (by simpa using heq)
  | cons first rest =>
    rw [hr, foldlM_cons] at hp
    cases hp

/-- Regions give up what they own once. In every run a mapping that was unmapped is passed to
no native function afterwards; a descriptor that was closed is not touched again before its
next adoption, and is closed at most once for each adoption; and every further call returns,
a failed one keeping what it must keep, and an assignment leaving mapping and descriptor of
the source together with one owner. -/
theorem regions_own_once {trace : List (Call × Output)} (hrun : Run World.system {} trace w) :
    (∀ id before after, w.history = before ++ .unmap id true :: after → ∀ e ∈ after, e.id ≠ id) ∧
      (∀ d before last next rest, eventsOf d w.handleTrace = before ++ last :: next :: rest →
        last = .closed d → next = .adopted d) ∧
      (∀ d, (eventsOf d w.handleTrace).count (.closed d) ≤
        (eventsOf d w.handleTrace).count (.adopted d)) ∧
      ∀ c, w.Legal c → ∃ o w', w.step c = some (o, w') ∧ Keeps w o w' c := by
  have hsound := run_sound hrun
  have hrecorded := run_recorded hsound.filed.run
  refine ⟨?_, ?_, ?_, ?_⟩
  · intro id before after hhistory
    obtain ⟨p, hp⟩ := hsound.tracked.known id
    rw [hhistory] at hp
    exact phase_gone hp
  · intro d before last next rest hevents hlast
    obtain ⟨o, hfold, _⟩ := hrecorded.lifecycle d
    obtain ⟨d', hnext⟩ := adopted_of_gaveUp hfold hevents ⟨d, .inl hlast⟩
    have hmem : next ∈ eventsOf d w.handleTrace := by
      rw [hevents]
      simp
    have hd := descriptor_of_mem hmem
    rw [hnext] at hd ⊢
    exact congrArg Handles.Event.adopted hd
  · intro d
    obtain ⟨o, hfold, _⟩ := hrecorded.lifecycle d
    have hbalance := adoptions_balance (fun _ he => descriptor_of_mem he) hfold
    have hfree : Ownership.free.owners = 0 := rfl
    omega
  · intro c hlegal
    obtain ⟨o, w', hstep, _, hkeeps⟩ := legal_step hsound hlegal
    exact ⟨o, w', hstep, hkeeps⟩

end

/-- A file of one page that the system maps at `address`. -/
def pageReply (address : BitVec 64) : MapReply := ⟨⟨4096#64, 0⟩, ⟨0, 0⟩, 4096#64, address, 0⟩

/-- Two mappings, a release and an assignment that fail, an assignment that succeeds, and the
end of both regions. -/
def sampleTrace : List (Call × Output) :=
  [(.handle (.adopt .file 3), .done (.ok ())),
    (.mapFile 0 4096#64 .readWrite 0#64 (pageReply 65536#64), .mapped (.ok 0)),
    (.handle (.adopt .file 4), .done (.ok ())),
    (.mapFile 2 4096#64 .readOnly 0#64 (pageReply 131072#64), .mapped (.ok 1)),
    (.release 0 ⟨-1, 5⟩, .released (.error (Error.fromErrno 5 "mapping release failed"))),
    (.moveAssign 0 1 ⟨-1, 5⟩ ⟨0, 0⟩, .done (.ok ())),
    (.moveAssign 0 1 ⟨0, 0⟩ ⟨0, 0⟩, .done (.ok ())),
    (.destroy 0 ⟨0, 0⟩ ⟨-1, 5⟩ ⟨0, 0⟩, .done (.ok ())),
    (.destroy 1 ⟨0, 0⟩ ⟨0, 0⟩ ⟨0, 0⟩, .done (.ok ()))]

theorem sampleTrace_run : ∃ w, Run World.system {} sampleTrace w ∧
    w.history = [.mapped 0, .mapped 1, .unmap 0 false, .unmap 0 false, .unmap 0 true,
      .unmap 1 true] ∧ eventsOf 4 w.handleTrace = [.adopted 4, .closed 4] := by
  refine ⟨_, .cons ⟨Nat.zero_le 1, ?_, ?_⟩ rfl <| .cons ⟨⟨_, rfl, rfl⟩, ?_⟩ rfl <|
    .cons ⟨Nat.zero_le 1, ?_, ?_⟩ rfl <| .cons ⟨⟨_, rfl, rfl⟩, ?_⟩ rfl <|
    .cons ⟨_, rfl⟩ rfl <| .cons ⟨⟨_, rfl⟩, _, rfl⟩ rfl <| .cons ⟨⟨_, rfl⟩, _, rfl⟩ rfl <|
    .cons ⟨_, rfl⟩ rfl <| .cons ⟨_, rfl⟩ rfl <| .refl _, rfl, rfl⟩
  · intro file hmem
    cases hmem
  · intro d hd
    cases hd
    rfl
  · rintro ⟨i, r, hget, heq⟩
    cases hget
  · intro file hmem
    cases hmem
  · intro d hd
    cases hd
    rfl
  rintro ⟨i, r, hget, heq⟩
  rcases Table.get?_push_cases hget with ⟨_, rfl⟩ | hold
  · cases heq
  · cases hold

/-- Mapping 0 was unmapped at the third attempt, and nothing happened to it afterwards. -/
theorem regions_own_once_moved : ∃ w, Run World.system {} sampleTrace w ∧
    w.history = [.mapped 0, .mapped 1, .unmap 0 false, .unmap 0 false] ++
      .unmap 0 true :: [.unmap 1 true] ∧
    (∀ e ∈ [Event.unmap 1 true], e.id ≠ 0) ∧ (eventsOf 4 w.handleTrace).count (.closed 4) = 1 ∧
    (eventsOf 4 w.handleTrace).count (.closed 4) ≤
      (eventsOf 4 w.handleTrace).count (.adopted 4) := by
  obtain ⟨w, hrun, hhistory, hevents⟩ := sampleTrace_run
  obtain ⟨hgone, _, hclosed, _⟩ := regions_own_once hrun
  exact ⟨w, hrun, hhistory, hgone 0 [_, _, _, _] _ hhistory, by rw [hevents]; decide, hclosed 4⟩

end Laghu.MappedRegions
