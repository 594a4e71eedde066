import Laghu.JsonDocumentParsing

/-!
What holds of documents and values over a whole run. A native document is read only while a
document owns it and its arena has not been reset, and it is freed once, by its owner and in
the generation in which it was created.
-/

namespace Laghu.JsonDocuments

open  BoundedArenas List Option World
open ObjectTable (Table)
open Runs (Run)

section

variable {o arena : ℕ} {e : Event} {history before after middle : List Event} {l l' : Life}

/-- How an event can change the life of a document. -/
inductive Change (o : ℕ) (e : Event) : Life → Life → Prop
  | none {l : Life} (hfreed : e ≠ .freed o) (hcreated : ∀ arena, e ≠ .created o arena)
      (htouched : e = .touched o → ∃ arena, l = .live arena)
      (hreset : ∀ arena, l = .live arena → e ≠ .reset arena) : Change o e l l
  | created {arena : ℕ} (h : e = .created o arena) : Change o e .unborn (.live arena)
  | reset {arena : ℕ} (h : e = .reset arena) : Change o e (.live arena) .stale
  | freed {arena : ℕ} (h : e = .freed o) : Change o e (.live arena) .gone

theorem after_cases (h : l.after o e = some l') : Change o e l l' := by
  cases e with
  | reset other =>
    cases l with
    | live arena =>
      by_cases heq : other = arena
      · rw [Life.after, if_pos heq] at h
        cases h
        exact .reset (by rw [heq])
      rw [Life.after, if_neg heq] at h
      cases h
      refine .none Event.noConfusion (fun _ => Event.noConfusion) (fun h => by cases h) ?_
      intro arena' hl he
      cases hl
      exact heq (Event.reset.inj he)
    | _ =>
      cases h
      exact .none Event.noConfusion (fun _ => Event.noConfusion) (fun h => by cases h)
        fun _ h => by cases h
  | created other arena =>
    by_cases ho : other = o
    · by_cases hunborn : l = .unborn
      · rw [ho, hunborn, Life.after, if_neg (not_not.mpr rfl), if_pos rfl] at h
        cases h
        rw [hunborn]
        exact .created (by rw [ho])
      · cases l <;> simp [Life.after, ho] at h hunborn
    · rw [l.after_created_ne ho] at h
      cases h
      exact .none Event.noConfusion (fun _ h => ho (Event.created.inj h).1)
        (fun h => by cases h) fun _ _ => Event.noConfusion
  | freed other =>
    by_cases ho : other = o
    · cases l with
      | live arena =>
        rw [Life.after, if_pos ho] at h
        cases h
        exact .freed (by rw [ho])
      | _ => simp [Life.after, ho] at h
    · rw [l.after_freed_ne ho] at h
      cases h
      exact .none (fun h => ho (Event.freed.inj h)) (fun _ => Event.noConfusion)
        (fun h => by cases h) fun _ _ => Event.noConfusion
  | touched other =>
    by_cases ho : other = o
    · cases l with
      | live arena =>
        cases h
        exact .none Event.noConfusion (fun _ => Event.noConfusion) (fun _ => ⟨arena, rfl⟩)
          fun _ _ => Event.noConfusion
      | _ => simp [Life.after, ho] at h
    · rw [l.after_touched_ne ho] at h
      cases h
      exact .none Event.noConfusion (fun _ => Event.noConfusion)
        (fun h => absurd (Event.touched.inj h) ho) fun _ _ => Event.noConfusion

theorem fold_cons (hfold : (e :: after).foldlM (Life.after o) l = some l') :
    ∃ next, Change o e l next ∧ after.foldlM (Life.after o) next = some l' := by
  rw [foldlM_cons, bind_eq_bind, bind_eq_some_iff] at hfold
  obtain ⟨next, hn, hr⟩ := hfold
  exact ⟨next, after_cases hn, hr⟩

/-- Nothing happens to a document that was freed or is stale. -/
theorem fold_dead (hdead : l = .gone ∨ l = .stale)
    (hfold : after.foldlM (Life.after o) l = some l') :
    l' = l ∧ .freed o ∉ after ∧ .touched o ∉ after := by
  induction after with
  | nil =>
    cases hfold
    exact ⟨rfl, not_mem_nil, not_mem_nil⟩
  | cons e rest ih =>
    obtain ⟨next, hchange, hr⟩ := fold_cons hfold
    cases hchange with
    | none hfreed _ htouched _ =>
      obtain ⟨hl, hnot, hnot'⟩ := ih hr
      refine ⟨hl, not_mem_cons_of_ne_of_not_mem (Ne.symm hfreed) hnot,
        not_mem_cons_of_ne_of_not_mem ?_ hnot'⟩
      intro heq
      obtain ⟨arena, hlive⟩ := htouched heq.symm
      rw [hlive] at hdead
      rcases hdead with h | h <;> cases h
    | created h | reset h | freed h => rcases hdead with h | h <;> cases h

/-- A live document stays live while its arena is not reset and nobody frees it. -/
theorem fold_live (hfold : after.foldlM (Life.after o) (.live arena) = some l) :
    (l = .live arena ∧ .reset arena ∉ after) ∨ (l = .stale ∧ .reset arena ∈ after) ∨ l = .gone := by
  induction after with
  | nil =>
    cases hfold
    exact .inl ⟨rfl, not_mem_nil⟩
  | cons e rest ih =>
    obtain ⟨next, hchange, hr⟩ := fold_cons hfold
    cases hchange with
    | none _ _ _ hreset =>
      rcases ih hr with ⟨hl, hnot⟩ | ⟨hl, hmem⟩ | hl
      · exact .inl ⟨hl, not_mem_cons_of_ne_of_not_mem (Ne.symm (hreset arena rfl)) hnot⟩
      · exact .inr (.inl ⟨hl, mem_cons_of_mem e hmem⟩)
      · exact .inr (.inr hl)
    | reset h =>
      refine .inr (.inl ⟨(fold_dead (.inr rfl) hr).1, ?_⟩)
      rw [h]
      exact mem_cons_self
    | freed h => exact .inr (.inr (fold_dead (.inl rfl) hr).1)

theorem fold_append (hfold : (before ++ e :: after).foldlM (Life.after o) l = some l') :
    ∃ first next, before.foldlM (Life.after o) l = some first ∧ Change o e first next ∧
      after.foldlM (Life.after o) next = some l' := by
  rw [foldlM_append, bind_eq_bind, bind_eq_some_iff] at hfold
  obtain ⟨first, hf, hr⟩ := hfold
  obtain ⟨next, hchange, hr⟩ := fold_cons hr
  exact ⟨first, next, hf, hchange, hr⟩

theorem fold_created
    (hfold : (before ++ .created o arena :: after).foldlM (Life.after o) l = some l') :
    after.foldlM (Life.after o) (.live arena) = some l' := by
  obtain ⟨first, next, _, hchange, hr⟩ := fold_append hfold
  cases hchange with
  | none _ hcreated => exact absurd rfl (hcreated arena)
  | created h =>
    rw [(Event.created.inj h).2]
    exact hr
  | reset h => cases h
  | freed h => cases h

/-- Freed once and not used after that. -/
theorem freed_once (hlife : life o (before ++ .freed o :: after) = some l) :
    .freed o ∉ after ∧ .touched o ∉ after := by
  obtain ⟨first, next, _, hchange, hr⟩ := fold_append hlife
  cases hchange with
  | none hfreed => exact absurd rfl hfreed
  | created h => cases h
  | reset h => cases h
  | freed h => exact (fold_dead (.inl rfl) hr).2

/-- Freed and used in the generation in which it was created. -/
theorem used_before_reset
    (hlife : life o (before ++ .created o arena :: (middle ++ e :: after)) = some l)
    (he : e = .freed o ∨ e = .touched o) : .reset arena ∉ middle := by
  obtain ⟨first, next, hf, hchange, _⟩ := fold_append (fold_created hlife)
  have hl : ∃ other, first = .live other := by
    cases hchange with
    | none hfreed _ htouched =>
      rcases he with heq | heq
      · exact absurd heq hfreed
      · exact htouched heq
    | created h => rcases he with heq | heq <;> rw [h] at heq <;> cases heq
    | reset h => exact ⟨_, rfl⟩
    | freed h => exact ⟨_, rfl⟩
  obtain ⟨other, rfl⟩ := hl
  rcases fold_live hf with ⟨_, hnot⟩ | ⟨hstale, _⟩ | hgone
  · exact hnot
  · cases hstale
  · cases hgone

/-- A document that is or was live has been created. -/
theorem created_of_life (hlife : life o history = some l) (hborn : l ≠ .unborn) :
    ∃ before after arena, history = before ++ .created o arena :: after := by
  induction history using List.reverseRecOn generalizing l with
  | nil =>
    cases hlife
    exact absurd rfl hborn
  | append_singleton rest e ih =>
    rw [life_append, bind_eq_some_iff] at hlife
    obtain ⟨first, hf, ha⟩ := hlife
    have hold : first ≠ .unborn →
        ∃ before after arena, rest ++ [e] = before ++ .created o arena :: after := by
      intro hne
      obtain ⟨before, after, arena, heq⟩ := ih hf hne
      exact ⟨before, after ++ [e], arena, by rw [heq, append_assoc, cons_append]⟩
    cases after_cases ha with
    | none => exact hold hborn
    | @created arena h => exact ⟨rest, [], arena, by rw [h]⟩
    | reset h | freed h => exact hold Life.noConfusion

end

/-- The arena of the native document has not been reset since it was created. -/
def World.NotReset (w : World) (origin : ℕ) : Prop :=
  ∀ before after arena, w.history = before ++ .created origin arena :: after →
    .reset arena ∉ after

/-- What a value needs to be read. -/
def World.Usable (w : World) (v : JsonValue) : Prop := w.Owned v.origin ∧ w.NotReset v.origin

/-- The document at `i` gives up what it owns: its native document is freed, unless its
arena was reset in between. -/
def Releases (w w' : World) (i : ℕ) : Prop :=
  ∀ d, w.documents.get? i = some d → d.nativeDocument ≠ none →
    (w.NotReset d.origin → w'.history = w.history ++ [.freed d.origin]) ∧
      (¬ w.NotReset d.origin → w'.history = w.history)

/-- What a call delivers. -/
def Delivers (w : World) (out : Output) (w' : World) : Call → Prop
  | .access value _ => ∀ v, w.values[value]? = some v →
      (w.Usable v → w'.history = w.history ++ [.touched v.origin]) ∧
        (¬ w.Usable v → w' = w ∧ ∃ e, out = .reading (.error e))
  | .moveConstruct _ => w'.values = w.values ∧ ∀ v ∈ w.values, w.Usable v → w'.Usable v
  | .moveAssign target source => w'.values = w.values ∧
      (target ≠ source → Releases w w' target) ∧
      ∀ d, w.documents.get? source = some d → d.nativeDocument ≠ none →
        ∀ v ∈ w.values, v.origin = d.origin → w.Usable v → w'.Usable v
  | .destroy document => Releases w w' document
  | _ => True

section

variable {externals : Externals} {w w' : World} {o : ℕ} {b : Birth} {l : Life}

/-- To be live is to be owned in an arena that was not reset. -/
theorem live_iff (hs : Sound w) (hb : w.births[o]? = some b) :
    (∃ arena, life o w.history = some (.live arena)) ↔ w.Owned o ∧ w.NotReset o := by
  obtain ⟨l, hl, hf⟩ := hs.lives o b hb
  constructor
  · intro ⟨arena, hlive⟩
    rw [hl] at hlive
    cases hlive
    refine ⟨hf.2.owned, ?_⟩
    intro before after other hhist
    rw [hhist] at hl
    rcases fold_live (fold_created hl) with ⟨_, hnot⟩ | ⟨hstale, _⟩ | hgone
    · exact hnot
    · cases hstale
    · cases hgone
  intro ⟨ho, hnot⟩
  rcases current_of_live hf ho with ⟨arena, rfl, _⟩ | ⟨rfl, _⟩
  · exact ⟨arena, hl⟩
  obtain ⟨before, after, arena, hhist⟩ := created_of_life hl Life.noConfusion
  have hreset := hnot before after arena hhist
  rw [hhist] at hl
  rcases fold_live (fold_created hl) with ⟨hlive, _⟩ | ⟨_, hmem⟩ | hgone
  · cases hlive
  · exact absurd hmem hreset
  · cases hgone

theorem usable_iff (hs : Sound w) {v : JsonValue} (hv : v ∈ w.values) :
    w.Usable v ↔ ∃ arena, life v.origin w.history = some (.live arena) := by
  obtain ⟨b, _, _, hb, _⟩ := hs.values v hv
  exact (live_iff hs hb).symm

theorem releases_of_life (hs : Sound w) {i : ℕ} {d : JsonDocument}
    (hget : w.documents.get? i = some d) (hhist : GivesUp w w' d) : Releases w w' i := by
  intro d' hget' hd
  obtain rfl : d = d' := some.inj (hget.symm.trans hget')
  obtain ⟨b, _, hb, _, _, _, ho⟩ := hs.owner hget hd
  have hlive := live_iff hs hb
  obtain ⟨l, hl, ⟨arena, rfl, hfreed⟩ | ⟨rfl, hsame⟩⟩ := hhist hd
  · exact ⟨fun _ => hfreed, fun hnot => absurd (hlive.mp ⟨arena, hl⟩).2 hnot⟩
  refine ⟨fun hnot => ?_, fun _ => hsame⟩
  obtain ⟨arena, hcontra⟩ := hlive.mpr ⟨ho, hnot⟩
  rw [hl] at hcontra
  cases hcontra

theorem moveAssign_delivers (hs : Sound w) {target source : ℕ}
    (hl : w.Legal externals (.moveAssign target source)) :
    ∃ out w', w.step externals (.moveAssign target source) = some (out, w') ∧ Sound w' ∧
      Delivers w out w' (.moveAssign target source) := by
  obtain ⟨⟨t, htgt⟩, d, hsrc⟩ := hl
  change ∃ out w', w.moveAssign target source = some (out, w') ∧ _
  unfold moveAssign
  rw [htgt, hsrc]
  dsimp only [bind_eq_bind, bind_some]
  split
  · rename_i hne
    exact ⟨_, w, rfl, hs, rfl, fun h => absurd hne h, fun _ _ _ _ _ _ h => h⟩
  rename_i hne
  obtain ⟨w₁, hrun, hdocs, hvals, hs', hhist, hk⟩ :=
    replace_spec hs htgt (Replaced.assign hne htgt hsrc)
  rw [hrun]
  dsimp only [bind_some]
  rw [hdocs]
  refine ⟨_, _, rfl, hs', hvals, fun _ => releases_of_life hs htgt hhist, ?_⟩
  intro d' hsrc' hd v hv horig husable
  obtain rfl : d = d' := some.inj (hsrc.symm.trans hsrc')
  obtain ⟨arena, hlive⟩ := (usable_iff hs hv).mp husable
  refine (usable_iff hs' (by rw [← hvals] at hv; exact hv)).mpr ⟨arena, ?_⟩
  by_cases ht : t.nativeDocument = none
  · have he : t = {} := by
      rcases hs.filing.shape target t htgt with he | ⟨b, _, hshape⟩
      · exact he
      · rw [hshape] at ht
        cases ht
    have hsame : w₁ = w := by
      rw [he] at hrun
      exact (some.inj hrun).symm
    rw [hsame]
    exact hlive
  · -- the target owned another native document
    have ho : t.origin ≠ v.origin := by
      intro heq
      exact hne (hs.filing.unique target source t d htgt hsrc ht hd (heq.trans horig))
    obtain ⟨l, _, ⟨_, _, hfreed⟩ | ⟨_, hsame⟩⟩ := hhist ht
    · rw [hfreed, life_append, hlive]
      exact Life.after_freed_ne (.live arena) ho
    · rw [hsame]
      exact hlive

/-- Every legal call returns, except for a child budget that cannot be counted. -/
theorem legal_step (hs : Sound w) {c : Call} (hlegal : w.Legal externals c) :
    (∃ out w', w.step externals c = some (out, w') ∧ Sound w' ∧ Delivers w out w' c) ∨
      ∃ call, c = .arena call ∧ Saturates w.arenas call ∧ w.step externals c = none := by
  cases c with
  | arena call =>
    rcases arena_spec hs hlegal.1 hlegal.2 with ⟨out, w', hrun, hs'⟩ | ⟨hsaturates, hn⟩
    · exact .inl ⟨out, w', hrun, hs', trivial⟩
    · exact .inr ⟨call, rfl, hsaturates, hn⟩
  | write view =>
    obtain ⟨out, w', hrun, hs'⟩ := write_spec hs hlegal
    exact .inl ⟨out, w', hrun, hs', trivial⟩
  | parse worker document arena limits reply parser fuel =>
    obtain ⟨hpresent, hsup, hfuel⟩ := hlegal
    obtain ⟨result, w', hrun, hs'⟩ :=
      parse_returns externals hs worker document hpresent hsup hfuel
    refine .inl ⟨.parsed result, w', ?_, hs', trivial⟩
    rw [World.step, hrun]
    rfl
  | moveConstruct source =>
    obtain ⟨d, hget⟩ := hlegal
    obtain ⟨out, w', hrun, hs', hhist, hvals, ho⟩ := moveConstruct_spec hs hget
    refine .inl ⟨out, w', hrun, hs', hvals, ?_⟩
    intro v hv husable
    refine (usable_iff hs' (by rw [hvals]; exact hv)).mpr ?_
    rw [hhist]
    exact (usable_iff hs hv).mp husable
  | moveAssign target source => exact .inl (moveAssign_delivers hs hlegal)
  | destroy document =>
    obtain ⟨d, hget⟩ := hlegal
    obtain ⟨w₁, hrun, hdocs, _, hs', hhist, _⟩ :=
      replace_spec hs hget (Replaced.erase w.documents document)
    refine .inl ⟨.done (.ok ()), { w₁ with documents := w.documents.erase document }, ?_, hs',
      releases_of_life hs hget hhist⟩
    change w.destroy document = _
    unfold destroy
    rw [hget]
    dsimp only [bind_eq_bind, bind_some]
    rw [hrun]
    dsimp only [bind_some]
    rw [hdocs]
    rfl
  | root document =>
    obtain ⟨d, hget⟩ := hlegal
    obtain ⟨out, w', hrun, hs', _⟩ := root_spec hs hget
    exact .inl ⟨out, w', hrun, hs', trivial⟩
  | access value accessor =>
    have hvalue : w.values[value]? = some w.values[value] := getElem?_eq_getElem hlegal
    obtain ⟨out, w', l, hrun, hs', hl, _, hcases⟩ := access_spec hs hvalue accessor
    refine .inl ⟨out, w', hrun, hs', ?_⟩
    intro v hv
    obtain rfl : w.values[value] = v := some.inj (hvalue.symm.trans hv)
    have husable := usable_iff hs (mem_of_getElem? hv)
    rcases hcases with ⟨arena, rfl, htouched⟩ | ⟨hnot, hsame, e, hout⟩
    · exact ⟨fun _ => htouched, fun h => absurd (husable.mpr ⟨arena, hl⟩) h⟩
    refine ⟨fun h => ?_, fun _ => ⟨hsame, e, hout⟩⟩
    obtain ⟨arena, hlive⟩ := husable.mp h
    rw [hl] at hlive
    exact absurd (some.inj hlive) (hnot arena)

theorem sound_empty : Sound {} := by
  refine ⟨⟨BoundedArenas.empty_sound, ?_, ?_, ?_⟩, ?_, ?_, ⟨?_, ?_⟩, ?_, ?_, ?_⟩
  · intro i j x y _ hx
    cases hx
  · intro s hs
    cases hs
  · intro s hs
    cases hs
  · intro o b hb
    cases hb
  · intro k v hv
    cases hv
  · intro i d hget
    cases hget
  · intro i j d d' hget
    cases hget
  · intro v hv
    cases hv
  · intro o b hb
    cases hb
  · exact fun o _ => rfl

theorem run_sound {trace : List (Call × Output)}
    (hrun : Run (system externals) {} trace w) : Sound w := by
  apply hrun.invariant
  · intro w c out w' hs hl hstep
    rcases legal_step hs hl with ⟨out', w'', hstep', hs', _⟩ | ⟨_, _, _, hn⟩
    · have hsame : some (out, w') = some (out', w'') := hstep.symm.trans hstep'
      cases hsame
      exact hs'
    · have hsame : some (out, w') = none := hstep.symm.trans hn
      cases hsame
  · exact sound_empty

theorem run_life (hs : Sound w) (o : ℕ) : ∃ l, life o w.history = some l := by
  rcases Nat.lt_or_ge o w.births.length with hlt | hge
  · obtain ⟨l, hl, _⟩ := hs.lives o w.births[o] (getElem?_eq_getElem hlt)
    exact ⟨l, hl⟩
  · exact ⟨.unborn, hs.unborn o hge⟩

/-- Values are read safely. In every run a native document is freed at most once, in the
generation in which it was created, and not used after that; an accessor reads it exactly
when a document still owns it and its arena was not reset, and returns an error else; moving
a document keeps its values usable; and whoever releases a document frees what it owns,
unless the arena was reset. -/
theorem values_read_safely {trace : List (Call × Output)}
    (hrun : Run (World.system externals) {} trace w) :
    (∀ o before after, w.history = before ++ .freed o :: after →
        .freed o ∉ after ∧ .touched o ∉ after) ∧
      (∀ o arena before middle e after,
        w.history = before ++ .created o arena :: (middle ++ e :: after) →
        e = .freed o ∨ e = .touched o → .reset arena ∉ middle) ∧
      ∀ c, w.Legal externals c →
        (∃ out w', w.step externals c = some (out, w') ∧ Delivers w out w' c) ∨
          ∃ call, c = .arena call ∧ Saturates w.arenas call := by
  have hsound := run_sound hrun
  refine ⟨?_, ?_, ?_⟩
  · intro o before after hhistory
    obtain ⟨l, hl⟩ := run_life hsound o
    rw [hhistory] at hl
    exact freed_once hl
  · intro o arena before middle e after hhistory he
    obtain ⟨l, hl⟩ := run_life hsound o
    rw [hhistory] at hl
    exact used_before_reset hl he
  intro c hlegal
  rcases legal_step hsound hlegal with ⟨out, w', hstep, _, hdelivers⟩ | ⟨call, hc, hsaturates, _⟩
  · exact .inl ⟨out, w', hstep, hdelivers⟩
  · exact .inr ⟨call, hc, hsaturates⟩

end

section

/-- An array that holds `true`, in an arena of 512 bytes. -/
def sampleParse : Call :=
  .parse MemoryBudgets.Heap.soleWorker { data := 64, size := 6#64 } 0
    ⟨64#64, 2#64, 8#64, 4#64, 1#64⟩ (.ok { data := 4096, size := 512#64 })
    ⟨true, .ok (.array [.boolean true])⟩ 8

def sampleExternals : Externals := ⟨JsonValidation.sortKeys, 2⟩

/-- A document is parsed, read, moved, read again and destroyed; then the arena is reset and
another document takes its place. -/
def sampleCalls : List Call :=
  [.arena (.budgets (.createRoot MemoryBudgets.Heap.soleWorker 1000#64)),
    .arena (.construct MemoryBudgets.Heap.soleWorker 0 ⟨true, true⟩ 512#64 512#64),
    sampleParse, .root 0, .access 0 (.arrayAt 0#64), .moveConstruct 0, .access 1 .boolean,
    .destroy 1, .access 1 .boolean,
    .arena (.quiescentBoundary 0 MemoryBudgets.Heap.soleWorker),
    .arena (.reset 0 MemoryBudgets.Heap.soleWorker 0 (.ok ())), sampleParse]

/-- The state after the first `n` of the calls; irreducible, for only the kernel can compute it. -/
@[irreducible] def sampleState (n : ℕ) : World :=
  (sampleCalls.take n).foldl (fun w c => ((w.step sampleExternals c).map Prod.snd).getD w) {}

theorem sampleState_succ {n : ℕ} {c : Call} (hc : sampleCalls[n]? = some c)
    (hl : (sampleState n).Legal sampleExternals c)
    (hsome : ((sampleState n).step sampleExternals c).isSome = true)
    (hreach : ∃ trace, Run (system sampleExternals) {} trace (sampleState n)) :
    ∃ trace, Run (system sampleExternals) {} trace (sampleState (n + 1)) := by
  obtain ⟨trace, hrun⟩ := hreach
  obtain ⟨⟨out, w'⟩, hstep⟩ := isSome_iff_exists.mp hsome
  have hn : sampleState (n + 1) = w' := by
    unfold sampleState at hstep ⊢
    rw [take_add_one, hc, toList_some, foldl_append, foldl_cons, foldl_nil, hstep]
    rfl
  refine ⟨trace ++ [(c, out)], .tail hrun hl ?_⟩
  rw [hn]
  exact hstep

theorem sampleParse_legal {w : World} (hsome : (w.arenas.arenas.get? 0).isSome = true)
    (hsize : w.arenas.arenas.size = 1) : w.Legal sampleExternals sampleParse := by
  refine ⟨isSome_iff_exists.mp hsome, ?_, ?_⟩
  · intro block _ other a hne hget
    have hlt := Table.lt_size_of_get? hget
    omega
  intro _ root hroot
  cases hroot
  exact ⟨.ok (), rfl⟩

theorem sampleState_reached :
    ∃ trace, Run (system sampleExternals) {} trace (sampleState 12) := by
  have h0 : ∃ trace, Run (system sampleExternals) {} trace (sampleState 0) := by
    unfold sampleState
    exact ⟨[], .refl _⟩
  have h2 : ∃ trace, Run (system sampleExternals) {} trace (sampleState 2) := by
    refine sampleState_succ (n := 1) rfl ⟨?_, fun _ _ _ _ _ h => by cases h⟩ (by decide +kernel)
      (sampleState_succ (n := 0) rfl ⟨⟨trivial, fun _ _ _ h => by cases h⟩,
        fun _ _ _ _ _ h => by cases h⟩ (by decide +kernel) h0)
    exact isSome_iff_exists.mp (by decide +kernel)
  have h3 := sampleState_succ (n := 2) rfl
    (sampleParse_legal (by decide +kernel) (by decide +kernel)) (by decide +kernel) h2
  have h4 := sampleState_succ (n := 3) rfl (isSome_iff_exists.mp (by decide +kernel))
    (by decide +kernel) h3
  have h5 := sampleState_succ (n := 4) (c := .access 0 (.arrayAt 0#64)) rfl
    (show 0 < _ by decide +kernel) (by decide +kernel) h4
  have h6 := sampleState_succ (n := 5) rfl (isSome_iff_exists.mp (by decide +kernel))
    (by decide +kernel) h5
  have h7 := sampleState_succ (n := 6) (c := .access 1 .boolean) rfl
    (show 1 < _ by decide +kernel) (by decide +kernel) h6
  have h8 := sampleState_succ (n := 7) rfl (isSome_iff_exists.mp (by decide +kernel))
    (by decide +kernel) h7
  have h9 := sampleState_succ (n := 8) (c := .access 1 .boolean) rfl
    (show 1 < _ by decide +kernel) (by decide +kernel) h8
  have h10 := sampleState_succ (n := 9) rfl
    ⟨isSome_iff_exists.mp (by decide +kernel), fun _ _ _ _ _ h => by cases h⟩
    (by decide +kernel) h9
  have h11 := sampleState_succ (n := 10) rfl
    ⟨⟨isSome_iff_exists.mp (by decide +kernel), by decide +kernel⟩,
      fun _ _ _ _ _ h => by cases h⟩ (by decide +kernel) h10
  exact sampleState_succ (n := 11) rfl
    (sampleParse_legal (by decide +kernel) (by decide +kernel)) (by decide +kernel) h11

theorem values_read_safely_again :
    (sampleState 12).history = [.created 0 0, .touched 0, .touched 0, .touched 0, .freed 0,
        .reset 0, .created 1 0] ∧
      (∀ o before after, (sampleState 12).history = before ++ .freed o :: after →
        .freed o ∉ after ∧ .touched o ∉ after) := by
  obtain ⟨trace, hrun⟩ := sampleState_reached
  exact ⟨by decide +kernel, (values_read_safely hrun).1⟩

end

end Laghu.JsonDocuments
