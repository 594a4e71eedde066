import Laghu.CodecOutcomes

/-!
What one call does to all streams of a program. Every stream is held by at most one
handle, and every handle after a call got its stream from a handle before it, so what is
known about the holder of a stream survives moves.
-/

namespace Laghu.Codecs

open Contract Views ObjectTable Option ObjectTable.Table World

/-- Handle `h` is `x` and holds the stream of `t`. -/
def World.Holds (w : World) (h : ℕ) (x : CodecStream) (t : Target) : Prop :=
  w.streams.get? h = some x ∧ x.target = some t

/-- The arena of a handle has been reset since the stream was created. -/
def World.Stale (w : World) (t : Target) : Prop :=
  t.generation.toNat < (w.generations t.arena).toNat

structure Held (w : World) : Prop where
  live : ∀ {h x t}, w.Holds h x t → ∃ state, w.states.get? t.state = some state
  unique : ∀ {h x t h' x' t'}, w.Holds h x t → w.Holds h' x' t' → t.state = t'.state → h = h'
  current : ∀ {h x t}, w.Holds h x t → t.generation.toNat ≤ (w.generations t.arena).toNat

/-- The stream a result is about. -/
def Output.about : Output → Option ℕ
  | .progress stream _ _ => stream
  | .cancelled stream => stream
  | _ => none

/-- The progress an event reports for stream `s`. -/
def progressOf (s : ℕ) : Call × Output → Option CodecProgress
  | (_, .progress stream (.ok progress) _) => if stream = some s then some progress else none
  | _ => none

/-- Events after which stream `s` takes no more calls. -/
def Ends (s : ℕ) : Call × Output → Prop
  | (_, .progress stream (.ok progress) _) => stream = some s ∧ progress.finished = true
  | (_, .progress stream (.error _) (some _)) => stream = some s
  | (_, .cancelled stream) => stream = some s
  | _ => False

/-- Calls of `finish` on stream `s`. -/
def Finishes (s : ℕ) : Call × Output → Prop
  | (.finish _ _ _, .progress stream _ _) => stream = some s
  | _ => False

/-- The sizes a caller offered. -/
def Call.offered : Call → Size × Size
  | .process _ input output _ => (input.size, output.size)
  | .finish _ output _ => (0#64, output.size)
  | _ => (0#64, 0#64)

/-- Counts are at most what was offered, and output is what reached the caller. -/
def Reported : Call × Output → Prop
  | (c, .progress _ (.ok progress) exchange) =>
    progress.inputConsumed ≤ c.offered.1 ∧ progress.outputProduced ≤ c.offered.2 ∧
      progress.outputProduced = (exchange.map Exchange.delivered).getD 0#64
  | _ => True

/-- What a call does to the state of stream `s`. -/
inductive StateStep (w : World) (s : ℕ) (c : Call) (o : Output) (state state' : CodecState) : Prop
  | quiet (hsame : state' = state) (hprogress : progressOf s (c, o) = none)
      (hends : Ends s (c, o) → ∀ h x t, w.Holds h x t → t.state = s → w.Stale t)
  | processed {input output : View} {r : Processed}
      (houtcome : Outcome state.accounting input output r)
      (houtput : o = .progress (some s) r.result r.exchange)
      (hstate : state' = { state with accounting := r.accounting })
  | cancelled (houtput : o = .cancelled (some s))
      (hstate : state' = { state with accounting := { state.accounting with cancelled := true } })

/-- A stream that has not been used. -/
def CodecState.Fresh (state : CodecState) : Prop :=
  state.accounting.inputBytes = 0#64 ∧ state.accounting.outputBytes = 0#64 ∧
    state.accounting.workCalls = 0#32

structure Effect (w : World) (c : Call) (o : Output) (w' : World) : Prop where
  held : Held w'
  size_le : w.states.size ≤ w'.states.size
  states : ∀ {s state'}, w'.states.get? s = some state' →
    (s = w.states.size ∧ state'.Fresh ∧ o.about = none) ∨
      ∃ state, w.states.get? s = some state ∧ StateStep w s c o state state'
  streams : ∀ {h' x' t'}, w'.Holds h' x' t' → t'.state = w.states.size ∨
    ∃ h x, w.Holds h x t' ∧ (x.finalizing = true → x'.finalizing = true) ∧
      (Finishes t'.state (c, o) → x'.finalizing = true ∨ w.Stale t')
  generations : ∀ a, (w.generations a).toNat ≤ (w'.generations a).toNat
  about : ∀ {s}, o.about = some s → s < w.states.size
  reported : Reported (c, o)

section

variable {w w' : World} {c : Call} {o : Output} {h : ℕ} {x : CodecStream}

theorem requireValid_spec (hw : Held w) (hx : w.streams.get? h = some x) :
    (∃ e, w.requireValid x = .error e ∧ e.code = .invalidState ∧
      ∀ t, x.target = some t → w.Stale t) ∨
    ∃ t, w.requireValid x = .ok t ∧ x.target = some t ∧ w.generations t.arena = t.generation := by
  unfold requireValid
  cases htgt : x.target with
  | none => exact .inl ⟨_, rfl, rfl, fun t ht => by cases ht⟩
  | some t =>
    dsimp only
    by_cases hgen : w.generations t.arena = t.generation
    · rw [if_neg (not_not.mpr hgen)]
      exact .inr ⟨t, rfl, rfl, hgen⟩
    rw [if_pos hgen]
    refine .inl ⟨_, rfl, rfl, ?_⟩
    intro t' ht'
    cases ht'
    have hle := hw.current ⟨hx, htgt⟩
    have hne : (w.generations t.arena).toNat ≠ t.generation.toNat :=
      fun heq => hgen (BitVec.eq_of_toNat_eq heq)
    unfold Stale
    omega

variable {s h' : ℕ}

/-- A handle that holds a stream holds one that was created. -/
theorem Held.about_lt (hw : Held w) (hx : w.streams.get? h = some x) (hs : x.stream = some s) :
    s < w.states.size := by
  obtain ⟨t, ht, rfl⟩ := map_eq_some_iff.mp hs
  obtain ⟨state, hstate⟩ := hw.live ⟨hx, ht⟩
  exact lt_size_of_get? hstate

variable {x' : CodecStream} {t' t : Target} {state : CodecState}

/-- Whoever holds the stream of `x` is `x`. -/
theorem Held.holder_unique (hw : Held w) (hx : w.streams.get? h = some x)
    (hstream : x.stream = some t'.state) (ht' : w.Holds h' x' t') : x.target = some t' := by
  obtain ⟨t, ht, hstate⟩ := map_eq_some_iff.mp hstream
  have heq := hw.unique ⟨hx, ht⟩ ht' hstate
  subst heq
  obtain ⟨hget, htgt⟩ := ht'
  cases hx.symm.trans hget
  exact htgt

/-- A call that changes nothing; an end it reports is of a stale stream. -/
theorem Effect.unchanged (hw : Held w) (hprogress : ∀ s, progressOf s (c, o) = none)
    (hends : ∀ h x t, w.Holds h x t → Ends t.state (c, o) → w.Stale t)
    (hfinishes : ∀ h x t, w.Holds h x t → Finishes t.state (c, o) → x.finalizing = true ∨ w.Stale t)
    (habout : ∀ s, o.about = some s → s < w.states.size) (hreported : Reported (c, o)) :
    Effect w c o w where
  held := hw
  size_le := le_refl _
  states := by
    intro s state' hstate
    refine .inr ⟨state', hstate, .quiet rfl (hprogress s) ?_⟩
    rintro hend h x t ht rfl
    exact hends h x t ht hend
  streams := fun {h x t} ht => .inr ⟨h, x, ht, id, hfinishes h x t ht⟩
  generations := fun _ => le_refl _
  about := fun {s} => habout s
  reported := hreported

/-- The handle was found invalid. -/
theorem refusal_effect (hw : Held w) (hx : w.streams.get? h = some x)
    (hstale : ∀ t, x.target = some t → w.Stale t) (e : Error) :
    Effect w c (.progress x.stream (.error e) none) w := by
  refine .unchanged hw (fun _ => rfl) (fun _ _ _ _ hend => hend.elim) ?_
    (fun s hs => hw.about_lt hx hs) trivial
  intro h' x' t' ht' hfin
  have hstream : x.stream = some t'.state := by
    cases c with
    | finish => exact hfin
    | _ => exact hfin.elim
  exact .inr (hstale t' (hw.holder_unique hx hstream ht'))

theorem Ends.about (hend : Ends s (c, o)) : o.about = some s := by
  cases o with
  | progress stream result exchange =>
    cases result with
    | ok progress => exact hend.1
    | error e =>
      cases exchange with
      | none => exact hend.elim
      | some _ => exact hend
  | cancelled stream => exact hend
  | _ => exact hend.elim

theorem Finishes.about (hfin : Finishes s (c, o)) : o.about = some s := by
  cases c with
  | finish =>
    cases o with
    | progress => exact hfin
    | _ => exact hfin.elim
  | _ => exact hfin.elim

theorem progressOf_of_about (hs : o.about ≠ some s) : progressOf s (c, o) = none := by
  cases o with
  | progress stream result exchange =>
    cases result with
    | ok progress => exact if_neg hs
    | error e => rfl
  | _ => rfl

/-- A call about another stream leaves this one alone. -/
theorem StateStep.of_about (hs : o.about ≠ some s) :
    StateStep w s c o state state :=
  .quiet rfl (progressOf_of_about hs) fun hend => absurd hend.about hs

theorem Effect.quiet (hw : Held w) (habout : o.about = none) (hreported : Reported (c, o)) :
    Effect w c o w := by
  have hn : ∀ s, o.about ≠ some s := fun s hs => by
    rw [habout] at hs
    cases hs
  exact .unchanged hw (fun s => progressOf_of_about (hn s))
    (fun _ _ _ _ hend => absurd hend.about (hn _))
    (fun _ _ _ _ hfin => absurd hfin.about (hn _))
    (fun s hs => absurd hs (hn s)) hreported

theorem Outcome.reported {a : CodecAccounting} {input output : View} {r : Processed}
    (houtcome : Outcome a input output r) (hoffered : c.offered = (input.size, output.size))
    (stream : Option ℕ) : Reported (c, .progress stream r.result r.exchange) := by
  cases houtcome with
  | refused => trivial
  | stalled => exact ⟨Nat.zero_le _, Nat.zero_le _, rfl⟩
  | failed => trivial
  | advanced hr exchange progress hinput houtput hdelivered =>
    refine ⟨?_, ?_, hdelivered⟩
    · rw [hoffered]
      exact hinput
    · rw [hoffered]
      exact BitVec.le_trans houtput (boundedOutputSize_le a output.size).1

/-- One handle gets new contents that hold the same stream. -/
theorem holds_set (htgt : x'.target = some t) {h₁ : ℕ} {x₁ : CodecStream} {t₁ : Target}
    (hholds : (w.streams.set h x').get? h₁ = some x₁ ∧ x₁.target = some t₁) :
    (h₁ = h ∧ x₁ = x' ∧ t₁ = t) ∨ (h₁ ≠ h ∧ w.Holds h₁ x₁ t₁) := by
  obtain ⟨hget, ht₁⟩ := hholds
  rcases get?_set_cases hget with ⟨rfl, rfl⟩ | ⟨hne, hget⟩
  · exact .inl ⟨rfl, rfl, some.inj (ht₁.symm.trans htgt)⟩
  · exact .inr ⟨hne, hget, ht₁⟩

variable {states : Table CodecState}

section

variable (hw : Held w)
include hw

/-- Streams may change as long as none is lost. -/
theorem Held.with_states
    (hl : ∀ {s state}, w.states.get? s = some state → ∃ state', states.get? s = some state') :
    Held { w with states := states } := by
  refine ⟨fun hx => ?_, hw.unique, hw.current⟩
  obtain ⟨state, hstate⟩ := hw.live hx
  exact hl hstate

theorem Held.set_stream (hx : w.Holds h x t) (htgt : x'.target = some t) :
    Held { w with streams := w.streams.set h x' } := by
  refine ⟨?_, ?_, ?_⟩
  · intro h₁ x₁ t₁ hholds
    rcases holds_set htgt hholds with ⟨rfl, rfl, rfl⟩ | ⟨_, hold⟩
    · exact hw.live hx
    · exact hw.live hold
  · intro h₁ x₁ t₁ h₂ x₂ t₂ hf hsec hsame
    rcases holds_set htgt hf with ⟨rfl, rfl, rfl⟩ | ⟨_, hold₁⟩
    · rcases holds_set htgt hsec with ⟨rfl, rfl, rfl⟩ | ⟨_, hold₂⟩
      · rfl
      · exact hw.unique hx hold₂ hsame
    rcases holds_set htgt hsec with ⟨rfl, rfl, rfl⟩ | ⟨_, hold₂⟩
    · exact hw.unique hold₁ hx hsame
    · exact hw.unique hold₁ hold₂ hsame
  · intro h₁ x₁ t₁ hholds
    rcases holds_set htgt hholds with ⟨rfl, rfl, rfl⟩ | ⟨_, hold⟩
    · exact hw.current hx
    · exact hw.current hold

/-- A call that reached the stream's table of operations. -/
theorem dispatch_effect (hx : w.Holds h x t) (htgt : x'.target = some t)
    (hfinal : x.finalizing = true → x'.finalizing = true) {input output : View} (finishing : Bool)
    (libraries : Libraries) (hoffered : c.offered = (input.size, output.size))
    (hfin : ∀ o, Finishes t.state (c, o) → x'.finalizing = true) :
    ∃ o w', dispatch { w with streams := w.streams.set h x' } t input output finishing
        libraries = some (o, w') ∧ Effect w c o w' := by
  obtain ⟨state, hstate⟩ := hw.live hx
  have houtcome : Outcome state.accounting input output
      (state.codec.process libraries state.accounting input output finishing) :=
    process_outcome libraries state.codec
  unfold dispatch
  rw [hstate, bind_eq_bind, bind_some]
  refine ⟨_, _, rfl, (hw.set_stream hx htgt).with_states fun hold => live_set _ _ hold,
    le_of_eq (size_set _ _ _).symm, ?_, ?_, fun _ => le_refl _, ?_,
    houtcome.reported hoffered _⟩
  · intro s state' hget
    right
    rcases get?_set_cases hget with ⟨rfl, rfl⟩ | ⟨hne, hget⟩
    · exact ⟨state, hstate, .processed houtcome rfl rfl⟩
    · exact ⟨state', hget, .of_about fun heq => hne (some.inj heq).symm⟩
  · intro h₁ x₁ t₁ hholds
    right
    rcases holds_set htgt hholds with ⟨rfl, rfl, rfl⟩ | ⟨hne, hold⟩
    · exact ⟨h₁, x, hx, hfinal, fun hf => .inl (hfin _ hf)⟩
    refine ⟨h₁, x₁, hold, id, fun hf => ?_⟩
    have hsame : t₁.state = t.state := (some.inj hf.about).symm
    exact absurd (hw.unique hold hx hsame) hne
  · intro s hs
    cases hs
    exact lt_size_of_get? hstate

variable (hx : w.streams.get? h = some x)
include hx

theorem process_effect (input output : View) (libraries : Libraries) :
    ∃ o w', w.step (.process h input output libraries) = some (o, w') ∧
      Effect w (.process h input output libraries) o w' := by
  rw [step, process, hx, bind_eq_bind, bind_some]
  rcases requireValid_spec hw hx with ⟨e, hrun, _, hstale⟩ | ⟨t, hrun, ht, _⟩
  · rw [hrun]
    exact ⟨_, w, rfl, refusal_effect hw hx hstale e⟩
  rw [hrun]
  dsimp only
  split
  · exact ⟨_, w, rfl, .unchanged hw (fun _ => rfl) (fun _ _ _ _ hend => hend.elim)
      (fun _ _ _ _ hfin => hfin.elim) (fun s hs => hw.about_lt hx hs) trivial⟩
  have hsame : { w with streams := w.streams.set h x } = w := by
    rw [set_get?_self hx]
  obtain ⟨o, w', hdisp, heff⟩ := dispatch_effect
    (c := .process h input output libraries) hw ⟨hx, ht⟩ ht id false libraries rfl
    (fun _ hfin => hfin.elim)
  rw [hsame] at hdisp
  exact ⟨o, w', hdisp, heff⟩

theorem finish_effect (output : View) (libraries : Libraries) :
    ∃ o w', w.step (.finish h output libraries) = some (o, w') ∧
      Effect w (.finish h output libraries) o w' := by
  rw [step, finish, hx, bind_eq_bind, bind_some]
  rcases requireValid_spec hw hx with ⟨e, hrun, _, hstale⟩ | ⟨t, hrun, ht, _⟩
  · rw [hrun]
    exact ⟨_, w, rfl, refusal_effect hw hx hstale e⟩
  rw [hrun]
  have htgt : CodecStream.target { x with finalizing := true } = some t := ht
  exact dispatch_effect hw ⟨hx, ht⟩ htgt (fun _ => rfl) true libraries rfl fun _ _ => rfl

theorem cancel_effect : ∃ o w', w.step (.cancel h) = some (o, w') ∧ Effect w (.cancel h) o w' := by
  rw [step, cancel, hx, bind_eq_bind, bind_some]
  rcases requireValid_spec hw hx with ⟨e, hrun, _, hstale⟩ | ⟨t, hrun, ht, _⟩
  · rw [hrun]
    refine ⟨_, w, rfl, .unchanged hw (fun _ => rfl) ?_ (fun _ _ _ _ hfin => hfin.elim)
      (fun s hs => hw.about_lt hx hs) trivial⟩
    intro h' x' t' ht' hend
    exact hstale t' (hw.holder_unique hx hend ht')
  obtain ⟨state, hstate⟩ := hw.live ⟨hx, ht⟩
  have hstream : x.stream = some t.state := by rw [CodecStream.stream, ht]; rfl
  rw [hrun]
  dsimp only
  rw [hstate, bind_eq_bind, bind_some, hstream]
  refine ⟨_, _, rfl, hw.with_states fun hold => live_set _ _ hold,
    le_of_eq (size_set _ _ _).symm, ?_, ?_, fun _ => le_refl _, ?_, trivial⟩
  · intro s state' hget
    right
    rcases get?_set_cases hget with ⟨rfl, rfl⟩ | ⟨hne, hget⟩
    · exact ⟨state, hstate, .cancelled rfl rfl⟩
    · exact ⟨state', hget, .of_about fun heq => hne (some.inj heq).symm⟩
  · intro h₁ x₁ t₁ hholds
    exact .inr ⟨h₁, x₁, hholds, id, fun hfin => hfin.elim⟩
  intro s hs
  cases hs
  exact lt_size_of_get? hstate

end

theorem createCodec_fresh {codec : Codec} {direction : CodecDirection} {storage : Bool}
    {limits : CodecLimits} {pin native : Result Unit}
    (hcre : createCodec codec direction storage limits pin native = .ok state) : state.Fresh := by
  unfold createCodec at hcre
  split at hcre
  · cases hcre
  split at hcre
  · cases hcre
  obtain ⟨_, _, hr⟩ := bind_eq_ok.mp hcre
  obtain ⟨_, _, hr⟩ := bind_eq_ok.mp hr
  obtain ⟨_, _, hr⟩ := bind_eq_ok.mp hr
  cases hr
  exact ⟨rfl, rfl, rfl⟩

variable (hw : Held w)
include hw

theorem create_effect (setup : Setup) (direction : CodecDirection) (storage : Bool) (arena : ℕ)
    (limits : CodecLimits) (pin : Result Unit) :
    ∃ o w', w.step (.create setup direction storage arena limits pin) = some (o, w') ∧
      Effect w (.create setup direction storage arena limits pin) o w' := by
  rw [step]
  cases hcre : setup.create direction storage limits pin with
  | error e =>
    exact ⟨_, w, rfl, .quiet hw rfl trivial⟩
  | ok state =>
    have hfresh : state.Fresh := by
      cases setup with
      | zlibNg | brotli | zstd => exact createCodec_fresh hcre
    have hold : ∀ {h x t}, w.Holds h x t → t.state ≠ w.states.size := by
      intro h x t ht
      obtain ⟨_, hget⟩ := hw.live ht
      exact ne_of_lt (lt_size_of_get? hget)
    refine ⟨_, _, rfl, ⟨?_, ?_, ?_⟩, ?_, ?_, ?_, fun _ => le_refl _,
      (fun hs => by cases hs), trivial⟩
    · rintro h x t ⟨hget, ht⟩
      rcases get?_push_cases hget with ⟨rfl, rfl⟩ | hget
      · cases ht
        exact ⟨state, get?_push_size _ _⟩
      · obtain ⟨state', hstate'⟩ := hw.live ⟨hget, ht⟩
        exact ⟨state', get?_push_of_some _ hstate'⟩
    · rintro h x t h' x' t' ⟨hget, ht⟩ ⟨hget', ht'⟩ hsame
      rcases get?_push_cases hget with ⟨rfl, rfl⟩ | hget
      · rcases get?_push_cases hget' with ⟨rfl, rfl⟩ | hget'
        · rfl
        · cases ht
          exact absurd hsame.symm (hold ⟨hget', ht'⟩)
      rcases get?_push_cases hget' with ⟨rfl, rfl⟩ | hget'
      · cases ht'
        exact absurd hsame (hold ⟨hget, ht⟩)
      · exact hw.unique ⟨hget, ht⟩ ⟨hget', ht'⟩ hsame
    · rintro h x t ⟨hget, ht⟩
      rcases get?_push_cases hget with ⟨rfl, rfl⟩ | hget
      · cases ht
        exact le_refl _
      · exact hw.current ⟨hget, ht⟩
    · exact le_trans (Nat.le_succ _) (le_of_eq (size_push _ _).symm)
    · intro s state' hget
      rcases get?_push_cases hget with ⟨rfl, rfl⟩ | hget
      · exact .inl ⟨rfl, hfresh, rfl⟩
      · exact .inr ⟨state', hget, .of_about fun heq => by cases heq⟩
    rintro h x t ⟨hget, ht⟩
    rcases get?_push_cases hget with ⟨rfl, rfl⟩ | hget
    · cases ht
      exact .inl rfl
    · exact .inr ⟨h, x, ⟨hget, ht⟩, id, fun hfin => hfin.elim⟩

/-- Handles are passed around: the one at `h` was at `source h` before, and the streams
that are still held are as they were. -/
theorem Effect.of_moved {streams : Table CodecStream} (source : ℕ → ℕ)
    (hfrom : ∀ {h x t}, streams.get? h = some x → x.target = some t → w.Holds (source h) x t)
    (hinj : ∀ {h x t h' x' t'}, streams.get? h = some x → x.target = some t →
      streams.get? h' = some x' → x'.target = some t' → source h = source h' → h = h')
    (hk : ∀ {h x t}, streams.get? h = some x → x.target = some t →
      states.get? t.state = w.states.get? t.state)
    (hstates : ∀ {s state}, states.get? s = some state → w.states.get? s = some state)
    (hsize : states.size = w.states.size) (hfinishes : ∀ s, ¬Finishes s (c, .done)) :
    Effect w c .done { w with states := states, streams := streams } := by
  refine ⟨⟨?_, ?_, ?_⟩, le_of_eq hsize.symm, ?_, ?_, fun _ => le_refl _,
    (fun hs => by cases hs), trivial⟩
  · rintro h x t ⟨hget, ht⟩
    obtain ⟨state, hstate⟩ := hw.live (hfrom hget ht)
    exact ⟨state, (hk hget ht).trans hstate⟩
  · rintro h x t h' x' t' ⟨hget, ht⟩ ⟨hget', ht'⟩ hsame
    exact hinj hget ht hget' ht' (hw.unique (hfrom hget ht) (hfrom hget' ht') hsame)
  · rintro h x t ⟨hget, ht⟩
    exact hw.current (hfrom hget ht)
  · intro s state hget
    exact .inr ⟨state, hstates hget, .of_about fun heq => by cases heq⟩
  · rintro h x t ⟨hget, ht⟩
    exact .inr ⟨source h, x, hfrom hget ht, id, fun hfin => absurd hfin (hfinishes _)⟩

section

variable (hx : w.streams.get? h = some x)
include hx

/-- Letting go of a handle touches no stream but its own. -/
theorem release_spec :
    ∃ states, w.release x = some { w with states := states } ∧ states.size = w.states.size ∧
      (∀ {s state}, states.get? s = some state → w.states.get? s = some state) ∧
      ∀ {s}, x.stream ≠ some s → states.get? s = w.states.get? s := by
  unfold release
  rcases requireValid_spec hw hx with ⟨e, hrun, _, _⟩ | ⟨t, hrun, ht, _⟩
  · rw [hrun]
    exact ⟨w.states, rfl, rfl, id, fun _ => rfl⟩
  obtain ⟨state, hstate⟩ := hw.live ⟨hx, ht⟩
  rw [hrun]
  dsimp only
  rw [hstate, bind_eq_bind, bind_some]
  refine ⟨w.states.erase t.state, rfl, size_erase _ _, ?_, ?_⟩
  · intro s state' hget
    exact (get?_erase_cases hget).2
  intro s hs
  apply get?_erase_ne
  rintro rfl
  rw [CodecStream.stream, ht] at hs
  exact hs rfl

theorem Held.stream_ne (ht' : w.Holds h' x' t') (hne : h' ≠ h) : x.stream ≠ some t'.state := by
  intro hstream
  obtain ⟨t, ht, hstate⟩ := map_eq_some_iff.mp hstream
  exact hne (hw.unique ⟨hx, ht⟩ ht' hstate).symm

/-- Handle `h` is passed on to `d`. -/
theorem Effect.of_passed {d : ℕ} (hd : h ≠ d) {streams : Table CodecStream}
    (hplace : ∀ {h' x' t'}, streams.get? h' = some x' → x'.target = some t' →
      (h' = d ∧ x' = x) ∨ (h' ≠ h ∧ h' ≠ d ∧ w.streams.get? h' = some x'))
    (hk : ∀ {h' x' t'}, w.Holds h' x' t' → h' ≠ d → states.get? t'.state = w.states.get? t'.state)
    (hstates : ∀ {s state}, states.get? s = some state → w.states.get? s = some state)
    (hsize : states.size = w.states.size) (hfinishes : ∀ s, ¬Finishes s (c, .done)) :
    Effect w c .done { w with states := states, streams := streams } := by
  have hfrom : ∀ {h' x' t'}, streams.get? h' = some x' → x'.target = some t' →
      w.Holds (if h' = d then h else h') x' t' := by
    intro h' x' t' hget ht
    rcases hplace hget ht with ⟨rfl, rfl⟩ | ⟨_, hne, hget⟩
    · exact ⟨by rw [if_pos rfl]; exact hx, ht⟩
    · exact ⟨by rw [if_neg hne]; exact hget, ht⟩
  refine .of_moved hw (fun h' => if h' = d then h else h') hfrom ?_ ?_ hstates hsize hfinishes
  · intro h₁ x₁ t₁ h₂ x₂ t₂ hget₁ ht₁ hget₂ ht₂ hsame
    rcases hplace hget₁ ht₁ with ⟨rfl, rfl⟩ | ⟨hne₁, ho₁, _⟩
    · rcases hplace hget₂ ht₂ with ⟨rfl, rfl⟩ | ⟨hne₂, ho₂, _⟩
      · rfl
      · rw [if_pos rfl, if_neg ho₂] at hsame
        exact absurd hsame.symm hne₂
    rcases hplace hget₂ ht₂ with ⟨rfl, rfl⟩ | ⟨hne₂, ho₂, _⟩
    · rw [if_neg ho₁, if_pos rfl] at hsame
      exact absurd hsame hne₁
    · rw [if_neg ho₁, if_neg ho₂] at hsame
      exact hsame
  · intro h' x' t' hget ht
    refine hk (hfrom hget ht) ?_
    split
    · exact hd
    · assumption

theorem moveConstruct_effect :
    ∃ o w', w.step (.moveConstruct h) = some (o, w') ∧ Effect w (.moveConstruct h) o w' := by
  have hnew : h ≠ w.streams.size := ne_of_lt (lt_size_of_get? hx)
  rw [step, hx, bind_eq_bind, bind_some]
  refine ⟨_, _, rfl, .of_passed hw hx hnew ?_ (fun _ _ => rfl) id rfl fun _ => id⟩
  intro h' x' t' hget ht
  rcases get?_push_cases hget with ⟨rfl, rfl⟩ | hget
  · exact .inl ⟨size_set _ _ _, rfl⟩
  rcases get?_set_cases hget with ⟨rfl, rfl⟩ | ⟨hne, hget⟩
  · cases ht
  · exact .inr ⟨hne, ne_of_lt (lt_size_of_get? hget), hget⟩

end

theorem moveAssign_effect {target : ℕ} {old : CodecStream}
    (hold : w.streams.get? target = some old) (hx : w.streams.get? h = some x) :
    ∃ o w', w.step (.moveAssign target h) = some (o, w') ∧
      Effect w (.moveAssign target h) o w' := by
  rw [step]
  split
  · exact ⟨_, w, rfl, .quiet hw rfl trivial⟩
  rename_i hself
  obtain ⟨states, hrel, hsize, hsub, hkeep⟩ := release_spec hw hold
  rw [hold, hx, bind_eq_bind, bind_some, bind_eq_bind, bind_some, hrel, bind_some]
  refine ⟨_, _, rfl, .of_passed hw hx (Ne.symm hself) ?_
    (fun ht hne => hkeep (hw.stream_ne hold ht hne)) hsub hsize fun _ => id⟩
  intro h' x' t' hget ht
  rcases get?_set_cases hget with ⟨rfl, rfl⟩ | ⟨hne, hget⟩
  · cases ht
  rcases get?_set_cases hget with ⟨rfl, rfl⟩ | ⟨hne', hget⟩
  · exact .inl ⟨rfl, rfl⟩
  · exact .inr ⟨hne, hne', hget⟩

theorem destroy_effect (hx : w.streams.get? h = some x) :
    ∃ o w', w.step (.destroy h) = some (o, w') ∧ Effect w (.destroy h) o w' := by
  obtain ⟨states, hrel, hsize, hsub, hkeep⟩ := release_spec hw hx
  rw [step, hx, bind_eq_bind, bind_some, hrel, bind_eq_bind, bind_some]
  refine ⟨_, _, rfl, .of_moved hw id ?_ (fun _ _ _ _ => id) ?_ hsub hsize fun _ => id⟩
  · intro h' x' t' hget ht
    exact ⟨(get?_erase_cases hget).2, ht⟩
  intro h' x' t' hget ht
  obtain ⟨hne, hget⟩ := get?_erase_cases hget
  exact hkeep (hw.stream_ne hx ⟨hget, ht⟩ hne)

theorem reset_effect (arena : ℕ) :
    ∃ o w', w.step (.reset arena) = some (o, w') ∧ Effect w (.reset arena) o w' := by
  rw [step]
  split
  · exact ⟨_, w, rfl, .quiet hw rfl trivial⟩
  rename_i hl
  have hgrow : ∀ a, (w.generations a).toNat ≤
      (if a = arena then w.generations arena + 1#64 else w.generations a).toNat := by
    intro a
    split
    · rename_i heq
      subst heq
      unfold sizeMax at hl
      bv_omega
    · exact le_refl _
  refine ⟨_, _, rfl, ⟨hw.live, hw.unique, ?_⟩, le_refl _, ?_, ?_, hgrow,
    (fun hs => by cases hs), trivial⟩
  · intro h x t ht
    exact le_trans (hw.current ht) (hgrow t.arena)
  · intro s state hget
    exact .inr ⟨state, hget, .of_about fun heq => by cases heq⟩
  · intro h x t ht
    exact .inr ⟨h, x, ht, id, fun hfin => hfin.elim⟩

theorem legal_effect (hl : w.Legal c) : ∃ o w', w.step c = some (o, w') ∧ Effect w c o w' := by
  cases c with
  | create setup direction storage arena limits pin =>
    exact create_effect hw setup direction storage arena limits pin
  | process stream input output libraries =>
    obtain ⟨x, hx⟩ := hl
    exact process_effect hw hx input output libraries
  | finish stream output libraries =>
    obtain ⟨x, hx⟩ := hl
    exact finish_effect hw hx output libraries
  | cancel stream =>
    obtain ⟨x, hx⟩ := hl
    exact cancel_effect hw hx
  | moveConstruct source =>
    obtain ⟨x, hx⟩ := hl
    exact moveConstruct_effect hw hx
  | moveAssign target source =>
    obtain ⟨⟨old, hold⟩, x, hx⟩ := hl
    exact moveAssign_effect hw hold hx
  | destroy stream =>
    obtain ⟨x, hx⟩ := hl
    exact destroy_effect hw hx
  | reset arena => exact reset_effect hw arena

end

end Laghu.Codecs
