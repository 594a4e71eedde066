import Laghu.MappedRegionInvariants

/-!
What each operation on mapped regions does to the handles, the regions and the records.
-/

namespace Laghu.MappedRegions

open Contract Handles ObjectTable.Table List Option World
open ObjectTable (Table)

section

variable {v v' : Handles.World} {c : Handles.Call} {o : Handles.Output} {h other : Handle}

theorem close_event (h : Handle) (reply : CloseReply) :
    (h.close reply).2.2 = none ∨ (h.close reply).2.2 = some (.closed h.descriptor) := by
  unfold Handle.close
  split
  · exact .inl rfl
  dsimp only [Handle.release]
  unfold closeDescriptorOnce
  split
  · exact .inl rfl
  split
  · exact .inl rfl
  · split <;> exact .inr rfl

theorem reset_event (h other : Handle) (reply : CloseReply) :
    (h.reset other reply).2.2.2 = some (.merged other.descriptor) ∨
      (h.reset other reply).2.2.2 = (h.close reply).2.2 := by
  unfold Handle.reset
  split
  · exact .inl rfl
  · exact .inr rfl

theorem close_not_adopted {d : Int} {reply : CloseReply}
    (he : (h.close reply).2.2 = some (.adopted d)) : False := by
  rcases close_event h reply with hn | hclosed
  · rw [hn] at he
    cases he
  · rw [hclosed] at he
    cases he

theorem get?_pair {t : Table Handle} {target source j : ℕ} {a b x : Handle}
    (hget : t.get? j = some x) (hout : j ∉ [target, source]) :
    ((t.set target a).set source b).get? j = some x := by
  rw [get?_set_ne _ _ (ne_of_not_mem_cons (not_mem_of_not_mem_cons hout)),
    get?_set_ne _ _ (ne_of_not_mem_cons hout), hget]

/-- Only the two forms of adoption adopt, and a call leaves the handles alone that it does not
name. -/
theorem step_local (hstep : v.step c = some (o, v')) :
    (∀ d, o.event = some (.adopted d) → adopts c = some d) ∧
      ∀ j x, v.handles.get? j = some x → j ∉ named c → v'.handles.get? j = some x := by
  cases c with
  | construct kind =>
    cases hstep
    exact ⟨(fun d h => by cases h), fun j x h _ => get?_push_of_some _ h⟩
  | adopt kind descriptor =>
    rw [Handles.World.step] at hstep
    split at hstep
    · cases hstep
      exact ⟨(fun d h => by cases h), fun j x h _ => h⟩
    · cases hstep
      exact ⟨(fun d h => by cases h; rfl), fun j x h _ => get?_push_of_some _ h⟩
  | adoptWith kind descriptor operations =>
    cases hstep
    exact ⟨(fun d h => by cases h; rfl), fun j x h _ => get?_push_of_some _ h⟩
  | moveConstruct source =>
    obtain ⟨other, _, hstep⟩ := bind_eq_some_iff.mp hstep
    cases hstep
    refine ⟨(fun d h => by cases h), fun j x h hout => get?_push_of_some _ ?_⟩
    rw [get?_set_ne _ _ (ne_of_not_mem_cons hout), h]
  | moveAssign target source reply =>
    obtain ⟨h, _, hstep⟩ := bind_eq_some_iff.mp hstep
    obtain ⟨other, _, hstep⟩ := bind_eq_some_iff.mp hstep
    split at hstep
    · cases hstep
      exact ⟨(fun d h => by cases h), fun j x h _ => h⟩
    · cases hstep
      exact ⟨fun d h => (close_not_adopted h).elim, fun j x => get?_pair⟩
  | reset target replacement reply =>
    obtain ⟨h, _, hstep⟩ := bind_eq_some_iff.mp hstep
    obtain ⟨other, _, hstep⟩ := bind_eq_some_iff.mp hstep
    split at hstep
    · cases hstep
      exact ⟨(fun d h => by cases h), fun j x h _ => h⟩
    cases hstep
    refine ⟨fun d he => ?_, fun j x => get?_pair⟩
    change (h.reset other reply).2.2.2 = some (.adopted d) at he
    rcases reset_event h other reply with hmerged | hclosed
    · rw [hmerged] at he
      cases he
    · rw [hclosed] at he
      exact (close_not_adopted he).elim
  | release handle =>
    obtain ⟨h, _, hstep⟩ := bind_eq_some_iff.mp hstep
    cases hstep
    refine ⟨fun d he => ?_, fun j x h hout => ?_⟩
    · split at he <;> cases he
    · exact (get?_set_ne _ _ (ne_of_not_mem_cons hout)).trans h
  | close handle reply =>
    obtain ⟨h, _, hstep⟩ := bind_eq_some_iff.mp hstep
    cases hstep
    exact ⟨fun d h => (close_not_adopted h).elim,
      fun j x h hout => (get?_set_ne _ _ (ne_of_not_mem_cons hout)).trans h⟩
  | destroy handle reply =>
    obtain ⟨h, _, hstep⟩ := bind_eq_some_iff.mp hstep
    cases hstep
    exact ⟨fun d h => (close_not_adopted h).elim,
      fun j x h hout => (get?_erase_ne _ (ne_of_not_mem_cons hout)).trans h⟩

/-- A descriptor without an owner is adopted, so none gets a second one. -/
theorem Transfer.few {event : Option Handles.Event} (htransfer : Transfer v v' event)
    (hfew : ∀ d, v.holders d ≤ 1) (hadopted : ∀ d, event = some (.adopted d) → v.holders d = 0)
    (d : Int) : v'.holders d ≤ 1 := by
  cases htransfer with
  | idle hsame =>
    rw [holders_eq, hsame, ← holders_eq]
    exact hfew d
  | adopted h _ hadded =>
    have hadd := holders_add hadded d
    have hn := hadopted h.descriptor rfl
    have hone := hfew d
    split at hadd
    · next heq =>
      rw [heq] at hn
      omega
    · omega
  | gaveUp h event he hsole hgone | merged h first hf hequal hgone =>
    have hadd := holders_add hgone d
    have hone := hfew d
    omega

end

section

variable {w w' : World} {c : Handles.Call} {h : Handle} {i : ℕ}

/-- A legal call on a handle, which does not adopt a descriptor that has an owner. -/
theorem Filed.handle (hfiled : Filed w) (hl : w.handles.Legal c)
    (hadopts : ∀ d, adopts c = some d → w.handles.holders d = 0) :
    ∃ o v, w.handles.step c = some (o, v) ∧ w.handle c =
        some (o, { w with handles := v, handleTrace := w.handleTrace ++ [(c, o)] }) ∧
      Filed { w with handles := v, handleTrace := w.handleTrace ++ [(c, o)] } := by
  have hrec := run_recorded hfiled.run
  obtain ⟨o, v, heff⟩ := legal_effect hrec.sound hrec.few hl
  refine ⟨o, v, heff.step, ?_, .tail hfiled.run hl heff.step, ?_⟩
  · rw [World.handle, heff.step]
    rfl
  · exact Transfer.few heff.transfer hfiled.few
      fun d he => hadopts d ((step_local heff.step).1 d he)

theorem Filed.sole (hfiled : Filed w) (h : Handle) : w.handles.Sole h :=
  fun _ => hfiled.few h.descriptor

theorem Filed.state (hfiled : Filed w) (hget : w.handles.handles.get? i = some h) :
    h.Vacant ∨ h.Armed :=
  sound_of_get? (run_recorded hfiled.run).sound hget

/-- The regions and their members are as they were. -/
structure Unmoved (w w' : World) : Prop where
  regions_eq : w'.regions = w.regions
  history_eq : w'.history = w.history
  created_eq : w'.created = w.created
  members : ∀ i r, w.regions.get? i = some r →
    w'.handles.handles.get? r.file = w.handles.handles.get? r.file

theorem Unmoved.sound (hunmoved : Unmoved w w') (hs : Sound w) (hfiled : Filed w') : Sound w' := by
  obtain ⟨hregs, hhist, hcre, hmems⟩ := hunmoved
  refine ⟨hfiled, ?_, ?_⟩
  · rw [hregs]
    apply hs.paired.rework
    · intro i r hget
      exact ⟨r, hget, rfl⟩
    · intro i r hget
      exact (hs.paired.owns i r hget).of_get? (hmems i r hget)
  · rw [hregs, hhist, hcre]
    exact hs.tracked

/-- The program uses its own handles. -/
theorem Sound.handle (hs : Sound w) (hl : w.Legal (.handle c)) :
    ∃ o w', w.handle c = some (o, w') ∧ Sound w' ∧ Unmoved w w' ∧
      w.handles.step c = some (o, w'.handles) := by
  obtain ⟨hc, hnamed, hadopts⟩ := hl
  obtain ⟨o, v, hstep, hrun, hfiled⟩ := hs.filed.handle hc hadopts
  have hunmoved : Unmoved w { w with handles := v, handleTrace := w.handleTrace ++ [(c, o)] } := by
    refine ⟨rfl, rfl, rfl, ?_⟩
    intro i r hget
    obtain ⟨x, hx, _⟩ := hs.paired.owns i r hget
    rw [hx]
    exact (step_local hstep).2 _ _ hx fun hmem => hnamed r.file hmem ⟨i, r, hget, rfl⟩
  exact ⟨o, _, hrun, hunmoved.sound hs hfiled, hunmoved, hstep⟩

variable {r t s : MappedRegion}

theorem Sound.member_lt (hs : Sound w) (hget : w.regions.get? i = some r) :
    r.file < w.handles.handles.size := by
  obtain ⟨x, hx, _⟩ := hs.paired.owns i r hget
  exact lt_size_of_get? hx

theorem Sound.not_member_size (hs : Sound w) : ¬ w.Member w.handles.handles.size := by
  rintro ⟨i, r, hget, heq⟩
  have hlt := hs.member_lt hget
  omega

/-- The handles after one of them was moved into a new one. -/
theorem get?_moved {handles : Table Handle} (hget : handles.get? i = some h) :
    ((handles.set i { kind := h.kind }).push h).get? handles.size = some h ∧
      ((handles.set i { kind := h.kind }).push h).get? i = some { kind := h.kind } ∧
      ∀ j, j ≠ i → j < handles.size →
        ((handles.set i { kind := h.kind }).push h).get? j = handles.get? j := by
  have hsize := size_set handles i { kind := h.kind }
  refine ⟨?_, ?_, ?_⟩
  · rw [← hsize]
    exact get?_push_size _ h
  · exact get?_push_of_some _ (get?_set_self _ hget)
  · intro j hne hlt
    rw [get?_push_lt _ _ (by omega), get?_set_ne _ _ hne]

theorem validate_file_isValid {size : Size} {access : MappingAccess} {offset : BitVec 64}
    {operations : MappingOperations} {reply : MapReply}
    (hok : validateMappingRequest h size access offset operations reply = .ok ()) :
    h.isValid = true := by
  unfold validateMappingRequest at hok
  simp only [bind_eq_ok, require_eq_ok] at hok
  obtain ⟨_, hv, _⟩ := hok
  exact hv

variable {file target source : ℕ}

/-- A request that fails changes nothing, and one that succeeds leaves the handle empty. -/
theorem mapWithOperations_spec (hs : Sound w) (hlends : w.Lends file) (size : Size)
    (access : MappingAccess) (offset : BitVec 64) (operations : MappingOperations)
    (reply : MapReply) :
    ∃ result w', w.mapWithOperations file size access offset operations reply =
        some (result, w') ∧ Sound w' ∧ w'.Lends file ∧ ∀ e, result = .error e → w' = w := by
  obtain ⟨⟨h, hget, hk⟩, hmember⟩ := hlends
  have hlends : w.Lends file := ⟨⟨h, hget, hk⟩, hmember⟩
  unfold mapWithOperations
  rw [hget]
  dsimp only [bind_eq_bind, bind_some]
  split
  · exact ⟨_, w, rfl, hs, hlends, fun _ _ => rfl⟩
  next hv =>
  split
  · exact ⟨_, w, rfl, hs, hlends, fun _ _ => rfl⟩
  have harmed : h.Armed := by
    rcases hs.filed.state hget with hvac | harmed
    · have hinv := hvac.isValid
      rw [validate_file_isValid hv] at hinv
      cases hinv
    · exact harmed
  obtain ⟨o, v, hstep, hrun, hfiled⟩ :=
    hs.filed.handle (c := .moveConstruct file) ⟨h, hget⟩ (fun d hd => by cases hd)
  have hm := moveConstruct_step hget (.inr harmed)
  rw [hstep] at hm
  cases hm
  rw [hrun]
  refine ⟨_, _, rfl, ⟨⟨hfiled.run, hfiled.few⟩, ?_, hs.tracked.mapped rfl rfl⟩, ?_,
    fun e he => by cases he⟩
  · obtain ⟨hnew, _, hkept⟩ := get?_moved hget
    apply hs.paired.push
    · exact ⟨h, hnew, hk, (fun hn => by cases hn), fun _ => harmed⟩
    · intro i r hreg
      refine hkept r.file ?_ (hs.member_lt hreg)
      intro heq
      exact hmember ⟨i, r, hreg, heq⟩
    · intro i r hreg
      exact ne_of_lt (hs.member_lt hreg)
  · refine ⟨⟨_, (get?_moved hget).2.1, hk⟩, ?_⟩
    rintro ⟨i, r, hreg, heq⟩
    have hlt := lt_size_of_get? hget
    rcases get?_push_cases hreg with ⟨_, rfl⟩ | hold
    · dsimp only at heq
      omega
    · exact hmember ⟨i, r, hold, heq⟩

/-- The local handle of the opened object is used like one of the program's own. -/
theorem mapSharedMemory_spec (hs : Sound w) (name : List Char) (size : Size)
    (access : MappingAccess) {opened : OpenReply}
    (hopened : w.handles.holders opened.descriptor = 0) (reply : MapReply) (close : CloseReply) :
    ∃ result w', w.mapSharedMemory name size access opened reply close = some (result, w') ∧
      Sound w' := by
  unfold mapSharedMemory
  iterate 3
    split
    · exact ⟨_, w, rfl, hs⟩
  next hdesc =>
  have hadopt : w.Legal (.handle (.adopt .file opened.descriptor)) := by
    refine ⟨by change w.handles.holders opened.descriptor ≤ 1; omega, ?_, ?_⟩
    · intro file hfile
      cases hfile
    intro d hd
    cases hd
    exact hopened
  obtain ⟨o, w₁, hrun₁, hs₁, hunmoved₁, hstep₁⟩ := hs.handle hadopt
  have hnew : w.handles.step (.adopt .file opened.descriptor) =
      some ({ event := some (.adopted opened.descriptor) },
        ⟨w.handles.handles.push ⟨.file, opened.descriptor, some defaultDescriptorOperations⟩⟩) := by
    simp [Handles.World.step, Handle.adopt, hdesc]
  rw [hstep₁] at hnew
  obtain ⟨_, hhandles⟩ := Prod.mk.inj (Option.some.inj hnew)
  have hlends : w₁.Lends w.handles.handles.size := by
    refine ⟨⟨_, by rw [hhandles]; exact get?_push_size _ _, rfl⟩, ?_⟩
    rintro ⟨i, r, hreg, heq⟩
    rw [hunmoved₁.regions_eq] at hreg
    exact hs.not_member_size ⟨i, r, hreg, heq⟩
  obtain ⟨result, w₂, hrun₂, hs₂, hlends₂, _⟩ :=
    mapWithOperations_spec hs₁ hlends size access 0#64 defaultMappingOperations reply
  obtain ⟨⟨x, hx, _⟩, hm⟩ := hlends₂
  have hdest : w₂.Legal (.handle (.destroy w.handles.handles.size close)) := by
    refine ⟨⟨x, hx, hs₂.filed.sole x⟩, ?_, fun d hd => by cases hd⟩
    intro file hfile
    rw [mem_singleton.mp hfile]
    exact hm
  obtain ⟨o₃, w₃, hrun₃, hs₃, _⟩ := hs₂.handle hdest
  refine ⟨result, w₃, ?_, hs₃⟩
  dsimp only [bind_eq_bind]
  rw [hrun₁, bind_some]
  rw [hrun₂, bind_some]
  rw [hrun₃]
  rfl

/-- What happens to a region whose mapping is given up. -/
structure Emptied (w w' : World) (i : ℕ) (r : MappedRegion) : Prop where
  region : w'.regions.get? i = some r.emptied
  others : ∀ j s, j ≠ i → w.regions.get? j = some s → w'.regions.get? j = some s ∧
    w'.handles.handles.get? s.file = w.handles.handles.get? s.file

/-- Nothing changed but the record of the mappings. -/
structure Kept (w w' : World) : Prop where
  regions_eq : w'.regions = w.regions
  handles_eq : w'.handles = w.handles

theorem Sound.touched (hs : Sound w) {m : Mapping} {e : Event}
    (hget : w.regions.get? i = some r) (haddr : r.address = some m) (hid : e.id = m.id)
    (ha : Phase.live.after e = some .live) : Sound (w.record e) := by
  have hl := hs.tracked.live i r m hget haddr
  rw [← hid] at hl
  exact ⟨⟨hs.filed.run, hs.filed.few⟩, hs.paired, hs.tracked.touched hl ha⟩

theorem release_spec (hs : Sound w) (hget : w.regions.get? i = some r) (unmap : NativeReply) :
    ∃ result w', w.release i unmap = some (result, w') ∧ Sound w' ∧
      ((∃ e, result = .error e ∧ Kept w w') ∨
        ∃ file, result = .ok file ∧ w'.Lends file ∧ Emptied w w' i r ∧ unmap.result = 0) := by
  unfold release
  rw [hget]
  dsimp only [bind_eq_bind, bind_some]
  cases haddr : r.address with
  | none => exact ⟨_, w, rfl, hs, .inl ⟨_, rfl, rfl, rfl⟩⟩
  | some m =>
    dsimp only
    split
    · exact ⟨_, w, rfl, hs, .inl ⟨_, rfl, rfl, rfl⟩⟩
    by_cases hunmap : unmap.result = 0
    · rw [if_neg (not_not.mpr hunmap), decide_eq_true hunmap]
      obtain ⟨h, hfile, hk, _, harmed⟩ := hs.paired.owns i r hget
      have harmed := harmed (by rw [haddr]; exact some_ne_none m)
      obtain ⟨o, v, hstep, hrun, hfiled⟩ := Filed.handle (w := w.record (.unmap m.id true))
        (c := .moveConstruct r.file) ⟨hs.filed.run, hs.filed.few⟩ ⟨h, hfile⟩
        (fun d hd => by cases hd)
      have hm := moveConstruct_step hfile (.inr harmed)
      rw [show w.handles.step (.moveConstruct r.file) = some (o, v) from hstep] at hm
      cases hm
      obtain ⟨hnew, hold, hkept⟩ := get?_moved hfile
      have hmems : ∀ j s, j ≠ i → w.regions.get? j = some s →
          ((w.handles.handles.set r.file { kind := h.kind }).push h).get? s.file =
            w.handles.handles.get? s.file := by
        intro j s hne hreg
        refine hkept s.file ?_ (hs.member_lt hreg)
        intro heq
        exact hne (hs.paired.apart j i s r hreg hget heq)
      have hfresh : ∀ j s, (w.regions.set i r.emptied).get? j = some s →
          s.file < w.handles.handles.size := by
        intro j s hreg
        rcases get?_set_cases hreg with ⟨_, rfl⟩ | ⟨_, hpre⟩
        · change r.file < w.handles.handles.size
          exact hs.member_lt hget
        · exact hs.member_lt hpre
      rw [hrun]
      refine ⟨_, _, rfl, ⟨⟨hfiled.run, hfiled.few⟩, ?_, hs.tracked.unmapped hget haddr⟩,
        .inr ⟨_, rfl, ⟨⟨h, hnew, hk⟩, ?_⟩, ⟨get?_set_self _ hget, ?_⟩, hunmap⟩⟩
      · apply hs.paired.rework
        · intro j s hreg
          rcases get?_set_cases hreg with ⟨rfl, rfl⟩ | ⟨_, hpre⟩
          · exact ⟨r, hget, rfl⟩
          · exact ⟨s, hpre, rfl⟩
        intro j s hreg
        rcases get?_set_cases hreg with ⟨_, rfl⟩ | ⟨hne, hpre⟩
        · exact ⟨_, hold, hk, fun _ => rfl, fun hsome => absurd rfl hsome⟩
        · exact (hs.paired.owns j s hpre).of_get? (hmems j s hne hpre)
      · rintro ⟨j, s, hreg, heq⟩
        have hlt := hfresh j s hreg
        rw [heq] at hlt
        exact lt_irrefl _ hlt
      · intro j s hne hreg
        exact ⟨by rw [get?_set_ne _ _ hne]; exact hreg, hmems j s hne hreg⟩
    · rw [if_pos hunmap, decide_eq_false hunmap]
      exact ⟨_, _, rfl, hs.touched hget haddr rfl rfl, .inl ⟨_, rfl, rfl, rfl⟩⟩

theorem Sound.vacant (hs : Sound w) (hget : w.regions.get? i = some r)
    (haddr : r.address = none) : w.handles.handles.get? r.file = some { kind := .file } := by
  obtain ⟨h, hfile, hk, hvac, _⟩ := hs.paired.owns i r hget
  have he : h = { kind := h.kind } := hvac haddr
  rw [hk] at he
  rw [hfile, he]

/-- A region that has no mapping has no descriptor to close. -/
theorem close_empty (hs : Sound w) (hget : w.regions.get? i = some r)
    (haddr : r.address = none) (reply : CloseReply) :
    ∃ w', w.handle (.close r.file reply) = some ({}, w') ∧ Sound w' ∧ Kept w w' := by
  have hfile := hs.vacant hget haddr
  obtain ⟨o, v, hstep, hrun, hfiled⟩ := hs.filed.handle (c := .close r.file reply)
    ⟨_, hfile, hs.filed.sole _⟩ (fun d hd => by cases hd)
  have hclosed := close_step hfile (.inl rfl) reply
  rw [set_get?_self hfile, hstep] at hclosed
  cases hclosed
  exact ⟨_, hrun, ⟨hfiled, hs.paired, hs.tracked⟩, rfl, rfl⟩

theorem Emptied.trans_unmoved {w'' : World} (hemptied : Emptied w w' i r)
    (hunmoved : Unmoved w' w'') : Emptied w w'' i r := by
  refine ⟨by rw [hunmoved.regions_eq]; exact hemptied.region, ?_⟩
  intro j s hne hreg
  obtain ⟨hsame, hfile⟩ := hemptied.others j s hne hreg
  exact ⟨by rw [hunmoved.regions_eq]; exact hsame, (hunmoved.members j s hsame).trans hfile⟩

theorem World.Lends.named_not_member (hlends : w.Lends file) : ∀ f ∈ [file], ¬ w.Member f := by
  intro f hf
  rw [mem_singleton.mp hf]
  exact hlends.2

theorem World.Lends.unmoved (hlends : w.Lends file) (hunmoved : Unmoved w w')
    (hhandle : ∃ h, w'.handles.handles.get? file = some h ∧ h.kind = .file) : w'.Lends file := by
  refine ⟨hhandle, ?_⟩
  rintro ⟨j, r, hreg, heq⟩
  rw [hunmoved.regions_eq] at hreg
  exact hlends.2 ⟨j, r, hreg, heq⟩

/-- The region keeps everything, or its mapping and its descriptor are gone. -/
theorem close_spec (hs : Sound w) (hget : w.regions.get? i = some r) (unmap : NativeReply)
    (close : CloseReply) :
    ∃ result w', w.close i unmap close = some (result, w') ∧ Sound w' ∧
      ((Kept w w' ∧ (result = .ok () → r.address = none)) ∨
        (Emptied w w' i r ∧ unmap.result = 0)) := by
  unfold World.close
  rw [hget]
  dsimp only [bind_eq_bind, bind_some]
  split
  · rename_i haddr
    obtain ⟨w', hrun, hs', hkept⟩ := close_empty hs hget haddr close
    rw [hrun]
    exact ⟨_, w', rfl, hs', .inl ⟨hkept, fun _ => haddr⟩⟩
  obtain ⟨result, w₁, hrel, hs₁, hcases⟩ := release_spec hs hget unmap
  rw [hrel, bind_some]
  rcases hcases with ⟨e, rfl, hkept⟩ | ⟨file, rfl, hlends, hemptied, hunmap⟩
  · exact ⟨_, w₁, rfl, hs₁, .inl ⟨hkept, fun hok => by cases hok⟩⟩
  obtain ⟨⟨h, hfile, hk⟩, hm⟩ := hlends
  have hlends : w₁.Lends file := ⟨⟨h, hfile, hk⟩, hm⟩
  obtain ⟨o₂, w₂, hrun₂, hs₂, hunmoved₂, hstep₂⟩ :=
    hs₁.handle (c := .close file close) ⟨⟨h, hfile, hs₁.filed.sole h⟩,
      hlends.named_not_member, fun d hd => by cases hd⟩
  have hclosed := close_step hfile (hs₁.filed.state hfile) close
  rw [hstep₂] at hclosed
  obtain ⟨_, hhandles⟩ := Prod.mk.inj (Option.some.inj hclosed)
  have he : w₂.handles.handles.get? file = some { kind := h.kind } := by
    rw [hhandles]
    exact get?_set_self _ hfile
  have hlends₂ : w₂.Lends file := hlends.unmoved hunmoved₂ ⟨_, he, hk⟩
  obtain ⟨o₃, w₃, hrun₃, hs₃, hunmoved₃, _⟩ :=
    hs₂.handle (c := .destroy file close) ⟨⟨_, he, hs₂.filed.sole _⟩,
      hlends₂.named_not_member, fun d hd => by cases hd⟩
  refine ⟨o₂.result, w₃, ?_, hs₃,
    .inr ⟨(hemptied.trans_unmoved hunmoved₂).trans_unmoved hunmoved₃, hunmap⟩⟩
  dsimp only
  rw [hrun₂, bind_some]
  rw [hrun₃]
  rfl

theorem construct_spec (hs : Sound w) : ∃ w', w.construct = some w' ∧ Sound w' ∧
      w'.regions = w.regions.push { file := w.handles.handles.size } ∧
      ∀ i r, w.regions.get? i = some r →
        w'.handles.handles.get? r.file = w.handles.handles.get? r.file := by
  obtain ⟨o, v, hstep, hrun, hfiled⟩ :=
    hs.filed.handle (c := .construct .file) trivial (fun d hd => by cases hd)
  cases hstep
  have hk : ∀ i r, w.regions.get? i = some r →
      (w.handles.handles.push { kind := .file }).get? r.file = w.handles.handles.get? r.file := by
    intro i r hget
    exact get?_push_lt _ _ (hs.member_lt hget)
  unfold construct
  rw [hrun]
  refine ⟨_, rfl, ⟨⟨hfiled.run, hfiled.few⟩, ?_, ?_⟩, rfl, hk⟩
  · apply hs.paired.push _ hk
    · intro i r hget
      exact ne_of_lt (hs.member_lt hget)
    · exact ⟨_, get?_push_size _ _, rfl, fun _ => rfl, fun hsome => absurd rfl hsome⟩
  apply hs.tracked.relabel Function.injective_id
  intro i r m hget haddr
  rcases get?_push_cases hget with ⟨_, rfl⟩ | hold
  · cases haddr
  · exact ⟨r, hold, haddr⟩

/-- The mapping and the descriptor of the source went to the target together. -/
structure Moved (w w' : World) (target source : ℕ) (t s : MappedRegion) : Prop where
  region : w'.regions.get? target = some { s with file := t.file }
  file : w'.handles.handles.get? t.file = w.handles.handles.get? s.file

theorem moveFrom_spec (hs : Sound w) (hne : target ≠ source)
    (htgt : w.regions.get? target = some t) (hsrc : w.regions.get? source = some s)
    (he : t.address = none) :
    ∃ w', w.moveFrom target source = some w' ∧ Sound w' ∧ Moved w w' target source t s := by
  have hvac := hs.vacant htgt he
  obtain ⟨h, hfile, hk, hn, hsome⟩ := hs.paired.owns source s hsrc
  have hfiles : t.file ≠ s.file := by
    intro heq
    exact hne (hs.paired.apart target source t s htgt hsrc heq)
  obtain ⟨o, v, hstep, hrun, hfiled⟩ := hs.filed.handle (c := .moveAssign t.file s.file ⟨0, 0⟩)
    ⟨_, h, hvac, hfile, hk.symm, fun _ => hs.filed.sole _⟩ (fun d hd => by cases hd)
  have hm := moveAssign_step hfiles hvac hfile hk.symm (.inl rfl) (hs.filed.state hfile) ⟨0, 0⟩
  rw [hstep] at hm
  cases hm
  obtain ⟨hgiven, hleft⟩ := get?_replace hfiles hvac hfile h { kind := h.kind }
  have hreg : ((w.regions.set target { s with file := t.file }).set source s.emptied).get?
      target = some { s with file := t.file } := by
    rw [get?_set_ne _ _ hne, get?_set_self _ htgt]
  have hcases : ∀ i r, ((w.regions.set target { s with file := t.file }).set source
      s.emptied).get? i = some r → (i = source ∧ r = s.emptied) ∨
        (i = target ∧ r = { s with file := t.file }) ∨
        (i ≠ source ∧ i ≠ target ∧ w.regions.get? i = some r) := by
    intro i r hget
    rcases get?_set_cases hget with hl | ⟨hnot, hold⟩
    · exact .inl hl
    rcases get?_set_cases hold with hf | ⟨hnot', hold⟩
    · exact .inr (.inl hf)
    · exact .inr (.inr ⟨hnot, hnot', hold⟩)
  unfold moveFrom
  rw [htgt, hsrc]
  dsimp only [bind_eq_bind, bind_some]
  rw [hrun]
  refine ⟨_, rfl, ⟨⟨hfiled.run, hfiled.few⟩, ?_, ?_⟩, ⟨hreg, hgiven.trans hfile.symm⟩⟩
  · apply hs.paired.rework
    · intro i r hget
      rcases hcases i r hget with ⟨rfl, rfl⟩ | ⟨rfl, rfl⟩ | ⟨_, _, hold⟩
      · exact ⟨s, hsrc, rfl⟩
      · exact ⟨t, htgt, rfl⟩
      · exact ⟨r, hold, rfl⟩
    intro i r hget
    rcases hcases i r hget with ⟨rfl, rfl⟩ | ⟨rfl, rfl⟩ | ⟨hnot, hnot', hold⟩
    · exact ⟨_, hleft, hk, fun _ => rfl, fun hsome => absurd rfl hsome⟩
    · exact ⟨h, hgiven, hk, hn, hsome⟩
    apply (hs.paired.owns i r hold).of_get?
    have hfile₁ : r.file ≠ t.file := by
      intro heq
      exact hnot' (hs.paired.apart i target r t hold htgt heq)
    have hfile₂ : r.file ≠ s.file := by
      intro heq
      exact hnot (hs.paired.apart i source r s hold hsrc heq)
    rw [get?_set_ne _ _ hfile₂, get?_set_ne _ _ hfile₁]
  · apply hs.tracked.relabel (Equiv.swap target source).injective
    intro i r m hget haddr
    rcases hcases i r hget with ⟨_, rfl⟩ | ⟨rfl, rfl⟩ | ⟨hnot, hnot', hold⟩
    · cases haddr
    · rw [Equiv.swap_apply_left]
      exact ⟨s, hsrc, haddr⟩
    · rw [Equiv.swap_apply_of_ne_of_ne hnot' hnot]
      exact ⟨r, hold, haddr⟩

theorem moveConstruct_spec (hs : Sound w) (hsrc : w.regions.get? source = some s) :
    ∃ w', w.moveConstruct source = some w' ∧ Sound w' := by
  obtain ⟨w₁, hrun₁, hs₁, hregs, _⟩ := construct_spec hs
  have htgt : w₁.regions.get? w.regions.size = some { file := w.handles.handles.size } := by
    rw [hregs]
    exact get?_push_size _ _
  have hsrc₁ : w₁.regions.get? source = some s := by
    rw [hregs]
    exact get?_push_of_some _ hsrc
  have hne : w.regions.size ≠ source := ne_of_gt (lt_size_of_get? hsrc)
  obtain ⟨w₂, hrun₂, hs₂, _⟩ := moveFrom_spec hs₁ hne htgt hsrc₁ rfl
  refine ⟨w₂, ?_, hs₂⟩
  unfold moveConstruct
  dsimp only [bind_eq_bind]
  rw [hrun₁, bind_some, hrun₂]

/-- The region of the source and its descriptor are at `owner`. -/
def Arrived (w w' : World) (s : MappedRegion) (owner : ℕ) : Prop :=
  ∃ r, w'.regions.get? owner = some r ∧ { r with file := s.file } = s ∧
    w'.handles.handles.get? r.file = w.handles.handles.get? s.file

/-- The source keeps what it has when the target could not be closed. -/
theorem moveAssign_spec (hs : Sound w) (htgt : w.regions.get? target = some t)
    (hsrc : w.regions.get? source = some s) (unmap : NativeReply) (close : CloseReply) :
    ∃ w', w.moveAssign target source unmap close = some w' ∧ Sound w' ∧
      (Arrived w w' s target ∨ Arrived w w' s source) := by
  unfold moveAssign
  split
  · exact ⟨w, rfl, hs, .inr ⟨s, hsrc, rfl, rfl⟩⟩
  rename_i heq
  obtain ⟨result, w₁, hclose, hs₁, hcases⟩ := close_spec hs htgt unmap close
  rw [hclose]
  have hk : w₁.regions.get? source = some s ∧
      w₁.handles.handles.get? s.file = w.handles.handles.get? s.file := by
    rcases hcases with ⟨⟨hregs, hhandles⟩, _⟩ | ⟨hemptied, _⟩
    · rw [hregs, hhandles]
      exact ⟨hsrc, rfl⟩
    · exact hemptied.others source s (Ne.symm heq) hsrc
  cases result with
  | error e => exact ⟨w₁, rfl, hs₁, .inr ⟨s, hk.1, rfl, hk.2⟩⟩
  | ok u =>
    have he : ∃ t', w₁.regions.get? target = some t' ∧ t'.address = none := by
      rcases hcases with ⟨⟨hregs, _⟩, hn⟩ | ⟨hemptied, _⟩
      · exact ⟨t, by rw [hregs]; exact htgt, hn rfl⟩
      · exact ⟨t.emptied, hemptied.region, rfl⟩
    obtain ⟨t', htgt', haddr⟩ := he
    obtain ⟨w₂, hrun, hs₂, hm⟩ :=
      moveFrom_spec hs₁ heq htgt' hk.1 haddr
    exact ⟨w₂, hrun, hs₂, .inl ⟨_, hm.region, rfl, hm.file.trans hk.2⟩⟩

/-- The member handle closes a descriptor that could not be given up before. -/
theorem destroy_spec (hs : Sound w) (hget : w.regions.get? i = some r) (unmap : NativeReply)
    (close member : CloseReply) : ∃ w', w.destroy i unmap close member = some w' ∧ Sound w' := by
  obtain ⟨result, w₁, hclose, hs₁, hcases⟩ := close_spec hs hget unmap close
  have hreg : ∃ r', w₁.regions.get? i = some r' ∧ r'.file = r.file := by
    rcases hcases with ⟨⟨hregs, _⟩, _⟩ | ⟨hemptied, _⟩
    · exact ⟨r, by rw [hregs]; exact hget, rfl⟩
    · exact ⟨r.emptied, hemptied.region, rfl⟩
  obtain ⟨r', hget₁, hfile⟩ := hreg
  obtain ⟨h, hm, _⟩ := hs₁.paired.owns i r' hget₁
  rw [hfile] at hm
  obtain ⟨o, v, hstep, hrun, hfiled⟩ := hs₁.filed.handle (c := .destroy r.file member)
    ⟨h, hm, hs₁.filed.sole h⟩ (fun d hd => by cases hd)
  unfold destroy
  rw [hget]
  dsimp only [bind_eq_bind, bind_some]
  rw [hclose, bind_some]
  rw [hrun]
  refine ⟨_, rfl, ⟨⟨hfiled.run, hfiled.few⟩, ?_, ?_⟩⟩
  · apply hs₁.paired.rework
    · intro j s hold
      exact ⟨s, (get?_erase_cases hold).2, rfl⟩
    intro j s hold
    obtain ⟨hne, hold⟩ := get?_erase_cases hold
    obtain ⟨x, hx, _⟩ := hs₁.paired.owns j s hold
    apply (hs₁.paired.owns j s hold).of_get?
    rw [hx]
    refine (step_local hstep).2 _ _ hx fun hmem => hne ?_
    exact hs₁.paired.apart j i s r' hold hget₁ ((mem_singleton.mp hmem).trans hfile.symm)
  · apply hs₁.tracked.relabel Function.injective_id
    intro j s m hold haddr
    exact ⟨s, (get?_erase_cases hold).2, haddr⟩

theorem pageRoundedRange_id {mapping : Option Mapping} {size offset length count : Size}
    {operations : Option MappingOperations} {page : PageReply} {pages : Mapping}
    (hok : pageRoundedRange mapping size operations offset length page = .ok (pages, count)) :
    ∃ m, mapping = some m ∧ pages.id = m.id := by
  unfold pageRoundedRange at hok
  split at hok
  · next m _ =>
    simp only [bind_eq_ok] at hok
    obtain ⟨_, _, _, _, _, _, finish, _, hok⟩ := hok
    split at hok <;> (obtain ⟨_, _, hok⟩ := bind_eq_ok.mp hok; split at hok) <;>
    · simp only [bind_eq_ok] at hok
      obtain ⟨_, _, _, _, address, _, hpages⟩ := hok
      cases hpages
      exact ⟨m, rfl, rfl⟩
  · cases hok

theorem flush_spec (hs : Sound w) (hget : w.regions.get? i = some r) (offset length : Size)
    (mode : MappingFlush) (page : PageReply) (reply : NativeReply) :
    ∃ result w', w.flush i offset length mode page reply = some (result, w') ∧ Sound w' := by
  unfold flush
  rw [hget]
  dsimp only [bind_eq_bind, bind_some]
  iterate 3
    split
    · exact ⟨_, w, rfl, hs⟩
  next pages count hpages =>
  obtain ⟨m, haddr, hid⟩ := pageRoundedRange_id hpages
  have hs' : Sound (w.record (.flush pages.id)) := hs.touched hget haddr hid rfl
  split
  · exact ⟨_, _, rfl, hs'⟩
  · exact ⟨_, _, rfl, hs'⟩

theorem protect_spec (hsound : Sound w) (hget : w.regions.get? i = some r)
    (access : MappingAccess) (reply : NativeReply) :
    ∃ result w', w.protect i access reply = some (result, w') ∧ Sound w' := by
  unfold protect
  rw [hget]
  dsimp only [bind_eq_bind, bind_some]
  cases haddr : r.address with
  | none => exact ⟨_, w, rfl, hsound⟩
  | some m =>
    dsimp only
    iterate 2
      split
      · exact ⟨_, w, rfl, hsound⟩
    have hsound' : Sound (w.record (.protect m.id)) := hsound.touched hget haddr rfl rfl
    split
    · exact ⟨_, _, rfl, hsound'⟩
    -- only the access of the region changed
    have hsame : ∀ j s, (w.regions.set i
        ⟨some m, r.size, access, r.file, r.operations⟩).get? j = some s →
        ∃ s', w.regions.get? j = some s' ∧ s.file = s'.file ∧ s.address = s'.address := by
      intro j s hold
      rcases get?_set_cases hold with ⟨rfl, rfl⟩ | ⟨_, hold⟩
      · exact ⟨r, hget, rfl, haddr.symm⟩
      · exact ⟨s, hold, rfl, rfl⟩
    refine ⟨_, _, rfl, ⟨⟨hsound'.filed.run, hsound'.filed.few⟩, ?_, ?_⟩⟩
    · apply hsound'.paired.rework
      · intro j s hold
        obtain ⟨s', hs', hfile, _⟩ := hsame j s hold
        exact ⟨s', hs', hfile⟩
      intro j s hold
      obtain ⟨s', hs', hfile, haddr'⟩ := hsame j s hold
      unfold Owns
      rw [hfile, haddr']
      exact hsound'.paired.owns j s' hs'
    · apply hsound'.tracked.relabel Function.injective_id
      intro j s m' hold haddr'
      obtain ⟨s', hs', _, hsame'⟩ := hsame j s hold
      exact ⟨s', hs', hsame'.symm.trans haddr'⟩

end

end Laghu.MappedRegions
