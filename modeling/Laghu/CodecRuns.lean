import Laghu.CodecEffects
import Mathlib.Algebra.Ring.Nat

/-!
Whole programs over compression streams. The counters of a stream are the sums of what
its calls reported, so they stay within the limits; a stream that has ended, and one
that is being finished, stays so however its handle is moved.
-/

namespace Laghu.Codecs

open Contract Views ObjectTable Option List World

/-- The counters are the sums of the reports. -/
structure Counts (reports : List CodecProgress) (a : CodecAccounting) : Prop where
  within : a.Within
  input : (reports.map (·.inputConsumed.toNat)).sum = a.inputBytes.toNat
  output : (reports.map (·.outputProduced.toNat)).sum = a.outputBytes.toNat
  work : reports.length ≤ a.workCalls.toNat

/-- Whoever holds stream `s` cannot use it any more. -/
def Ended (w : World) (s : ℕ) : Prop :=
  ∀ h x t, w.Holds h x t → t.state = s →
    w.Stale t ∨ ∃ state, w.states.get? s = some state ∧ ¬state.accounting.Active

/-- Whoever holds stream `s` can only finish it. -/
def Finalized (w : World) (s : ℕ) : Prop :=
  ∀ h x t, w.Holds h x t → t.state = s → x.finalizing = true ∨ w.Stale t

/-- What the events so far say about the streams. -/
structure Recorded (trace : List (Call × Output)) (w : World) : Prop where
  held : Held w
  counts : ∀ s state, w.states.get? s = some state →
    Counts (trace.filterMap (progressOf s)) state.accounting
  known : ∀ e ∈ trace, ∀ s, e.2.about = some s → s < w.states.size
  ended : ∀ e ∈ trace, ∀ s, Ends s e → Ended w s
  finalized : ∀ e ∈ trace, ∀ s, Finishes s e → Finalized w s
  reported : ∀ e ∈ trace, Reported e

section

variable {w w' : World} {c : Call} {o : Output} {s : ℕ}

theorem Counts.fresh {state : CodecState} (hfresh : state.Fresh) : Counts [] state.accounting := by
  obtain ⟨hinput, hout, hwork⟩ := hfresh
  refine ⟨⟨?_, ?_, ?_⟩, ?_, ?_, Nat.zero_le _⟩
  · rw [hinput]
    exact Nat.zero_le _
  · rw [hout]
    exact Nat.zero_le _
  · rw [hwork]
    exact Nat.zero_le _
  · rw [hinput]
    rfl
  · rw [hout]
    rfl

theorem Counts.step {reports : List CodecProgress} {state state' : CodecState}
    (h : Counts reports state.accounting) (hstep : StateStep w s c o state state') :
    Counts (reports ++ (progressOf s (c, o)).toList) state'.accounting := by
  cases hstep with
  | quiet hsame hprog =>
    rw [hsame, hprog, toList_none, append_nil]
    exact h
  | cancelled hout hst =>
    subst hout hst
    have hn : progressOf s (c, .cancelled (some s)) = none := rfl
    rw [hn, toList_none, append_nil]
    exact ⟨⟨h.within.input, h.within.output, h.within.work⟩, h.input, h.output, h.work⟩
  | @processed input output r houtcome hout hst =>
    subst hout hst
    have htallied := houtcome.tallied h.within
    cases hres : r.result with
    | error e =>
      obtain ⟨hinput, hout, hwork⟩ := htallied.failure e hres
      have hn : progressOf s (c, .progress (some s) (.error e) r.exchange) = none := rfl
      rw [hn, toList_none, append_nil]
      refine ⟨htallied.within, ?_, ?_, le_trans h.work hwork⟩
      · rw [hinput]
        exact h.input
      · rw [hout]
        exact h.output
    | ok progress =>
      obtain ⟨hinput, hout, hwork⟩ := htallied.success progress hres
      have hreports : progressOf s (c, .progress (some s) (.ok progress) r.exchange) =
          some progress := if_pos rfl
      rw [hreports, toList_some]
      refine ⟨htallied.within, ?_, ?_, ?_⟩
      · rw [map_append, sum_append, h.input, hinput]
        rfl
      · rw [map_append, sum_append, h.output, hout]
        rfl
      · rw [length_append, hwork]
        exact Nat.add_le_add_right h.work 1

variable {t t' : Target}

theorem World.Stale.step (heff : Effect w c o w') (hstale : w.Stale t) : w'.Stale t :=
  lt_of_lt_of_le hstale (heff.generations t.arena)

/-- A stream that takes no calls does not start again. -/
theorem StateStep.inactive {state state' : CodecState} (hstep : StateStep w s c o state state')
    (hidle : ¬state.accounting.Active) : ¬state'.accounting.Active := by
  cases hstep with
  | quiet hsame =>
    rw [hsame]
    exact hidle
  | processed hout _ hst =>
    rw [hst]
    rw [(hout.inactive hidle).2.1]
    exact hidle
  | cancelled _ hst =>
    rw [hst]
    rintro ⟨hcanc, _⟩
    cases hcanc

variable {h' h : ℕ} {x' x : CodecStream}

section

variable (heff : Effect w c o w')
include heff

/-- The holder of an old stream was a holder before the call. -/
theorem Effect.holder (hs : s < w.states.size) (ht' : w'.Holds h' x' t') (hst : t'.state = s) :
    ∃ h x, w.Holds h x t' ∧ (x.finalizing = true → x'.finalizing = true) ∧
      (Finishes s (c, o) → x'.finalizing = true ∨ w.Stale t') := by
  subst hst
  rcases heff.streams ht' with hnew | hold
  · omega
  · exact hold

/-- The state of an old stream that is held came from its state before the call. -/
theorem Effect.state (hs : s < w.states.size) (ht' : w'.Holds h' x' t') (hst : t'.state = s) :
    ∃ state state', w.states.get? s = some state ∧ w'.states.get? s = some state' ∧
      StateStep w s c o state state' := by
  subst hst
  obtain ⟨state', hst'⟩ := heff.held.live ht'
  rcases heff.states hst' with ⟨hnew, _⟩ | ⟨state, hold, hstep⟩
  · omega
  · exact ⟨state, state', hold, hst', hstep⟩

theorem Ended.step (hs : s < w.states.size) (hended : Ended w s) : Ended w' s := by
  intro h' x' t' ht' hst
  obtain ⟨h, x, ht, _⟩ := heff.holder hs ht' hst
  rcases hended h x t' ht hst with hstale | ⟨state, hget, hidle⟩
  · exact .inl (hstale.step heff)
  obtain ⟨old, new, hold, hnew, hstep⟩ := heff.state hs ht' hst
  cases hget.symm.trans hold
  exact .inr ⟨new, hnew, hstep.inactive hidle⟩

theorem Ended.of_event (hends : Ends s (c, o)) : Ended w' s := by
  have hs := heff.about hends.about
  intro h' x' t' ht' hst
  obtain ⟨h, x, ht, _⟩ := heff.holder hs ht' hst
  obtain ⟨old, new, hold, hnew, hstep⟩ := heff.state hs ht' hst
  cases hstep with
  | quiet _ _ hstale => exact .inl ((hstale hends h x t' ht hst).step heff)
  | @processed _ _ r houtcome hout hnewState =>
    subst hout hnewState
    refine .inr ⟨_, hnew, houtcome.ends ?_⟩
    cases hres : r.result with
    | ok progress =>
      rw [hres] at hends
      exact .inl ⟨progress, rfl, hends.2⟩
    | error e =>
      rw [hres] at hends
      cases hexchange : r.exchange with
      | none =>
        rw [hexchange] at hends
        exact hends.elim
      | some exchange => exact .inr ⟨e, exchange, rfl, rfl⟩
  | cancelled _ hnewState =>
    subst hnewState
    refine .inr ⟨_, hnew, ?_⟩
    rintro ⟨hcanc, _⟩
    cases hcanc

theorem Finalized.step (hs : s < w.states.size) (hfinalized : Finalized w s) : Finalized w' s := by
  intro h' x' t' ht' hst
  obtain ⟨h, x, ht, hkeep, _⟩ := heff.holder hs ht' hst
  rcases hfinalized h x t' ht hst with hfinal | hstale
  · exact .inl (hkeep hfinal)
  · exact .inr (hstale.step heff)

theorem Finalized.of_event (hfinishes : Finishes s (c, o)) : Finalized w' s := by
  intro h' x' t' ht' hst
  obtain ⟨_, _, _, _, hfin⟩ := heff.holder (heff.about hfinishes.about) ht' hst
  rcases hfin hfinishes with hfinal | hstale
  · exact .inl hfinal
  · exact .inr (hstale.step heff)

end

variable {trace : List (Call × Output)}

/-- Nothing was reported for a stream that does not exist yet. -/
theorem Recorded.unborn (hrec : Recorded trace w) (hs : w.states.size ≤ s) :
    trace.filterMap (progressOf s) = [] := by
  rw [filterMap_eq_nil_iff]
  rintro ⟨c, o⟩ he
  apply progressOf_of_about
  intro habout
  have := hrec.known _ he s habout
  omega

theorem Recorded.step (hrec : Recorded trace w) (heff : Effect w c o w') :
    Recorded (trace ++ [(c, o)]) w' := by
  have hsize := heff.size_le
  refine ⟨heff.held, ?_, ?_, ?_, ?_, ?_⟩
  · intro s state' hget
    have hl : [(c, o)].filterMap (progressOf s) = (progressOf s (c, o)).toList := by
      cases hprog : progressOf s (c, o) with
      | none => simp [hprog]
      | some progress => simp [hprog]
    rw [filterMap_append, hl]
    rcases heff.states hget with ⟨rfl, hfresh, habout⟩ | ⟨state, hold, hstep⟩
    · rw [hrec.unborn (le_refl _), progressOf_of_about (by rw [habout]; nofun)]
      exact .fresh hfresh
    · exact (hrec.counts s state hold).step hstep
  · intro e he s hs
    rcases mem_append.mp he with he | he
    · exact lt_of_lt_of_le (hrec.known e he s hs) hsize
    · rw [mem_singleton.mp he] at hs
      exact lt_of_lt_of_le (heff.about hs) hsize
  · intro e he s hends
    rcases mem_append.mp he with he | he
    · exact (hrec.ended e he s hends).step heff (hrec.known e he s hends.about)
    · rw [mem_singleton.mp he] at hends
      exact .of_event heff hends
  · intro e he s hfinishes
    rcases mem_append.mp he with he | he
    · exact (hrec.finalized e he s hfinishes).step heff (hrec.known e he s hfinishes.about)
    · rw [mem_singleton.mp he] at hfinishes
      exact .of_event heff hfinishes
  intro e he
  rcases mem_append.mp he with he | he
  · exact hrec.reported e he
  · rw [mem_singleton.mp he]
    exact heff.reported

theorem run_recorded {w₀ : World} (hempty : w₀.Empty) (hrun : Runs.Run system w₀ trace w) :
    Recorded trace w := by
  have hn : ∀ {α : Type} (i : ℕ), (Table.empty : Table α).get? i = none :=
    fun i => Table.get?_of_size_le (Nat.zero_le i)
  have hstart : Recorded [] w₀ := by
    obtain ⟨hstates, hstreams⟩ := hempty
    have hholds : ∀ {h x t}, ¬w₀.Holds h x t := by
      rintro h x t ⟨hget, _⟩
      rw [hstreams, hn] at hget
      cases hget
    refine ⟨⟨fun ht => absurd ht hholds, fun ht => absurd ht hholds, fun ht => absurd ht hholds⟩,
      ?_, ?_, ?_, ?_, ?_⟩
    · intro s state hget
      rw [hstates, hn] at hget
      cases hget
    all_goals exact fun e he => absurd he not_mem_nil
  apply hrun.history _ hstart
  intro trace s c o t hrec hl hstep
  obtain ⟨o', t', hrun, heff⟩ := legal_effect hrec.held hl
  have hsame : some (o, t) = some (o', t') := hstep.symm.trans hrun
  cases hsame
  exact hrec.step heff

/-- The call is `process` or `finish` on handle `h`. -/
def Call.Uses (h : ℕ) : Call → Prop
  | .process stream _ _ _ => stream = h
  | .finish stream _ _ => stream = h
  | _ => False

/-- A call on a stream that does not take calls reaches no native code. -/
theorem dispatch_inactive {state : CodecState} (hst : w.states.get? t.state = some state)
    (hidle : ¬state.accounting.Active) (input output : View) (finishing : Bool)
    (libraries : Libraries) :
    ∃ e, w.dispatch t input output finishing libraries =
      some (.progress (some t.state) (.error e) none, w) ∧ e.code = .invalidState := by
  have hout : Outcome state.accounting input output
      (state.codec.process libraries state.accounting input output finishing) :=
    process_outcome libraries state.codec
  obtain ⟨⟨e, hres, hcode⟩, haccounting, hexchange⟩ := hout.inactive hidle
  refine ⟨e, ?_, hcode⟩
  unfold dispatch
  rw [hst, bind_eq_bind, bind_some]
  dsimp only
  rw [hres, haccounting, hexchange, Table.set_get?_self hst]
  rfl

theorem ended_refuses (hw : Held w) (hended : Ended w s) (hx : w.streams.get? h = some x)
    (hs : x.stream = some s) (huses : c.Uses h) :
    ∃ e w', w.step c = some (.progress (some s) (.error e) none, w') ∧
      e.code = .invalidState ∧ w'.states = w.states := by
  obtain ⟨t, ht, rfl⟩ := map_eq_some_iff.mp hs
  have hv := requireValid_spec hw hx
  cases c with
  | process stream input output libraries =>
    cases huses
    rw [step, process, hx, bind_eq_bind, bind_some]
    rcases hv with ⟨e, hrun, hcode, _⟩ | ⟨t', hrun, ht', hgen⟩
    · rw [hrun, hs]
      exact ⟨e, w, rfl, hcode, rfl⟩
    cases ht.symm.trans ht'
    rw [hrun]
    dsimp only
    split
    · rw [hs]
      exact ⟨_, w, rfl, rfl, rfl⟩
    rcases hended _ x t ⟨hx, ht⟩ rfl with hstale | ⟨state, hst, hidle⟩
    · unfold Stale at hstale
      rw [hgen] at hstale
      omega
    obtain ⟨e, hdisp, hcode⟩ :=
      dispatch_inactive hst hidle input output false libraries
    exact ⟨e, w, hdisp, hcode, rfl⟩
  | finish stream output libraries =>
    cases huses
    rw [step, finish, hx, bind_eq_bind, bind_some]
    rcases hv with ⟨e, hrun, hcode, _⟩ | ⟨t', hrun, ht', hgen⟩
    · rw [hrun, hs]
      exact ⟨e, w, rfl, hcode, rfl⟩
    cases ht.symm.trans ht'
    rw [hrun]
    rcases hended _ x t ⟨hx, ht⟩ rfl with hstale | ⟨state, hst, hidle⟩
    · unfold Stale at hstale
      rw [hgen] at hstale
      omega
    obtain ⟨e, hdisp, hcode⟩ := dispatch_inactive
      (w := { w with streams := w.streams.set h { x with finalizing := true } })
      hst hidle .empty output true libraries
    exact ⟨e, _, hdisp, hcode, rfl⟩
  | _ => exact huses.elim

theorem finalized_refuses (hw : Held w) (hfinalized : Finalized w s)
    (hx : w.streams.get? h = some x) (hs : x.stream = some s) (input output : View)
    (libraries : Libraries) :
    ∃ e, w.step (.process h input output libraries) =
      some (.progress (some s) (.error e) none, w) ∧ e.code = .invalidState := by
  obtain ⟨t, ht, rfl⟩ := map_eq_some_iff.mp hs
  rw [step, process, hx, bind_eq_bind, bind_some]
  rcases requireValid_spec hw hx with ⟨e, hrun, hcode, _⟩ | ⟨t', hrun, ht', hgen⟩
  · rw [hrun, hs]
    exact ⟨e, rfl, hcode⟩
  cases ht.symm.trans ht'
  rcases hfinalized _ x t ⟨hx, ht⟩ rfl with hfinal | hstale
  · rw [hrun]
    dsimp only
    rw [if_pos hfinal, hs]
    exact ⟨_, rfl, rfl⟩
  · unfold Stale at hstale
    rw [hgen] at hstale
    omega

end

/-- In every run over compression streams, the reports of a stream add up to its
counters, within its limits and within what was offered, and a byte behind the output
limit is not reported. A stream that has finished, failed or been cancelled refuses every
call without touching the native codec, and one that is being finished takes no input. -/
theorem codec_streams_bounded {w₀ w : World} {trace : List (Call × Output)} (hempty : w₀.Empty)
    (hrun : Runs.Run World.system w₀ trace w) :
    (∀ e ∈ trace, Reported e) ∧
    (∀ s state, w.states.get? s = some state →
      ((trace.filterMap (progressOf s)).map (·.inputConsumed.toNat)).sum =
        state.accounting.inputBytes.toNat ∧
      state.accounting.inputBytes.toNat ≤ state.accounting.limits.maximumInputBytes.toNat ∧
      ((trace.filterMap (progressOf s)).map (·.outputProduced.toNat)).sum =
        state.accounting.outputBytes.toNat ∧
      state.accounting.outputBytes.toNat ≤ state.accounting.limits.maximumOutputBytes.toNat ∧
      (trace.filterMap (progressOf s)).length ≤ state.accounting.limits.maximumWorkCalls.toNat) ∧
    (∀ s h x, w.streams.get? h = some x → x.stream = some s →
      ((∃ e ∈ trace, Ends s e) → ∀ c, c.Uses h →
        ∃ e w', w.step c = some (.progress (some s) (.error e) none, w') ∧
          e.code = .invalidState ∧ w'.states = w.states) ∧
      ((∃ e ∈ trace, Finishes s e) → ∀ input output libraries,
        ∃ e, w.step (.process h input output libraries) =
          some (.progress (some s) (.error e) none, w) ∧ e.code = .invalidState)) ∧
    ∀ c, w.Legal c → ∃ o w', w.step c = some (o, w') := by
  have hrecorded := run_recorded hempty hrun
  refine ⟨hrecorded.reported, ?_, ?_, ?_⟩
  · intro s state hget
    have hcounts := hrecorded.counts s state hget
    exact ⟨hcounts.input, hcounts.within.input, hcounts.output, hcounts.within.output,
      le_trans hcounts.work hcounts.within.work⟩
  · intro s h x hx hs
    refine ⟨?_, ?_⟩
    · rintro ⟨e, he, hends⟩ c huses
      exact ended_refuses hrecorded.held (hrecorded.ended e he s hends) hx hs huses
    rintro ⟨e, he, hfinishes⟩ input output libraries
    exact finalized_refuses hrecorded.held (hrecorded.finalized e he s hfinishes) hx hs input
      output libraries
  · intro c hlegal
    obtain ⟨o, w', hstep, _⟩ := legal_effect hrecorded.held hlegal
    exact ⟨o, w', hstep⟩

/-- A zlib-ng that takes all it is offered, with a brotli and a zstd that take nothing. -/
def sampleLibraries : Libraries where
  zlibNg :=
    { call := fun _ => ⟨0#32, 0#32, zOk⟩
      input_le := fun c => Nat.zero_le c.availIn.toNat
      output_le := fun c => Nat.zero_le c.availOut.toNat }
  brotli :=
    { compressStream := fun c _ => ⟨c.availableInput, c.availableOutput, true, false, false⟩
      decompressStream := fun c => ⟨c.availableInput, c.availableOutput, .needsMoreInput, 0⟩
      compress_input_le := fun c _ => BitVec.le_refl c.availableInput
      compress_output_le := fun c _ => BitVec.le_refl c.availableOutput
      decompress_input_le := fun c => BitVec.le_refl c.availableInput
      decompress_output_le := fun c => BitVec.le_refl c.availableOutput }
  zstd :=
    { compressStream2 := fun _ _ => ⟨0#64, 0#64, .ok 1#64⟩
      decompressStream := fun _ => ⟨0#64, 0#64, .ok 1#64⟩
      compress_input_le := fun c _ => Nat.zero_le c.sourceSize.toNat
      compress_output_le := fun c _ => Nat.zero_le c.destinationSize.toNat
      decompress_input_le := fun c => Nat.zero_le c.sourceSize.toNat
      decompress_output_le := fun c => Nat.zero_le c.destinationSize.toNat }

theorem sampleView_valid (size : Size) : 4096 = 0 → size = 0#64 := fun h => absurd h (by decide)

def sampleView (size : Size) : View := ⟨⟨4096, size⟩, sampleView_valid size⟩

/-- A decoder reaches its output limit, and then writes one byte too many. -/
def sampleTrace : List (Call × Output) :=
  [(.create (.zlibNg zOk) .decode true 0 ⟨8#64, 2#64, 4#32⟩ (.ok ()), .created (.ok ())),
   (.process 0 (sampleView 3#64) (sampleView 2#64) sampleLibraries,
    .progress (some 0) (.ok ⟨3#64, 2#64, true, true, false⟩) (some ⟨.output 4096, 3#64, 2#64⟩)),
   (.process 0 (sampleView 1#64) (sampleView 2#64) sampleLibraries,
    .progress (some 0) (.error CodecAccounting.outputLimitError)
      (some ⟨.overflowProbe, 1#64, 1#64⟩))]

theorem sampleTrace_run :
    ∃ w, Runs.Run system { generations := fun _ => 1#64 } sampleTrace w ∧
    w.streams.get? 0 = some { target := some ⟨0, 0, 1#64⟩ } :=
  ⟨_, .cons trivial rfl (.cons ⟨_, rfl⟩ rfl (.cons ⟨_, rfl⟩ rfl (.refl _))), rfl⟩

theorem codec_streams_bounded_probe :
    ∃ w, Runs.Run World.system { generations := fun _ => 1#64 } sampleTrace w ∧
      ∃ e w', w.step (.finish 0 (sampleView 2#64) sampleLibraries) =
        some (.progress (some 0) (.error e) none, w') ∧ e.code = .invalidState ∧
        w'.states = w.states := by
  obtain ⟨w, hrun, hx⟩ := sampleTrace_run
  have hends : ∃ e ∈ sampleTrace, Ends 0 e :=
    ⟨_, List.mem_cons_of_mem _ (List.mem_cons_of_mem _ List.mem_cons_self), rfl⟩
  exact ⟨w, hrun, ((codec_streams_bounded ⟨rfl, rfl⟩ hrun).2.2.1 0 0 _ hx rfl).1 hends
    (.finish 0 (sampleView 2#64) sampleLibraries) rfl⟩

end Laghu.Codecs
