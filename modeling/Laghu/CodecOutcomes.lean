import Laghu.CodecStreams

/-!
What one call of an adapter can do. The three adapters are written differently, but each
refuses, asks for output room, fails after its native call, or reports counts that are
inside what it was offered and what the limits leave.
-/

namespace Laghu.Codecs

open Contract Views

def CodecAccounting.Active (a : CodecAccounting) : Prop :=
  a.cancelled = false ∧ a.finished = false ∧ a.failed = false

instance (a : CodecAccounting) : Decidable a.Active :=
  inferInstanceAs (Decidable (_ ∧ _))

/-- The bytes of a native call that ended up in the caller's buffer. -/
def Exchange.delivered (exchange : Exchange) : Size :=
  match exchange.destination with
  | .output _ => exchange.produced
  | .overflowProbe => 0#64

/-- The ways in which a call can end. -/
inductive Outcome (a : CodecAccounting) (input output : View) : Processed → Prop
  | refused (e : Error) (hcode : ¬a.Active → e.code = .invalidState) :
      Outcome a input output { result := .error e, accounting := a }
  | stalled (hready : a.preflight input.size = .ok ()) :
      Outcome a input output
        { result := .ok ⟨0#64, 0#64, false, true, false⟩, accounting := a.record 0#64 0#64 false }
  | failed (hready : a.preflight input.size = .ok ()) (exchange : Exchange) (e : Error) :
      Outcome a input output (a.fail exchange e)
  | advanced (hready : a.preflight input.size = .ok ()) (exchange : Exchange)
      (progress : CodecProgress) (hinput : progress.inputConsumed ≤ input.size)
      (houtput : progress.outputProduced ≤ a.boundedOutputSize output.size)
      (hdelivered : progress.outputProduced = exchange.delivered) :
      Outcome a input output (a.advance exchange progress)

section

variable {a : CodecAccounting} {input output : View} {finishing : Bool} {r : Processed}

theorem active_iff : a.Active ↔ (a.cancelled || a.finished || a.failed) = false := by
  simp [CodecAccounting.Active, and_assoc]

theorem preflight_inactive (h : ¬a.Active) (size : Size) :
    a.preflight size = .error (coreError .invalidState "codec stream is no longer active") := by
  rw [active_iff, Bool.not_eq_false] at h
  rw [CodecAccounting.preflight, if_pos h]

/-- The preflight finds an active stream with work and input left. -/
theorem preflight_eq_ok {size : Size} (h : a.preflight size = .ok ()) : a.Active ∧
    a.workCalls < a.limits.maximumWorkCalls ∧
    size ≤ a.limits.maximumInputBytes - a.inputBytes := by
  by_cases hact : a.Active
  · unfold CodecAccounting.preflight at h
    rw [if_neg (by rw [active_iff.mp hact]; decide)] at h
    split at h
    · cases h
    rename_i hwork
    split at h
    · cases h
    · rename_i hinput
      exact ⟨hact, BitVec.not_le.mp hwork, BitVec.not_lt.mp hinput⟩
  · rw [preflight_inactive hact] at h
    cases h

theorem opened_outcome {native : Size → Processed} (h : a.preflight input.size = .ok () →
      Outcome a input output (native (a.boundedOutputSize output.size))) :
    Outcome a input output (a.opened input output native) := by
  unfold CodecAccounting.opened
  cases hready : a.preflight input.size with
  | error e =>
    refine .refused e fun hidle => ?_
    rw [preflight_inactive hidle] at hready
    cases hready
    rfl
  | ok u =>
    dsimp only
    split
    · exact .stalled hready
    split
    · refine .refused _ fun hidle => absurd ?_ hidle
      exact (preflight_eq_ok hready).1
    · exact h hready

/-- A count from a field that the native call can only lower. -/
theorem clamped_sub_le {offered : Size} {available : BitVec 32}
    (havailable : available ≤ offered.setWidth 32) : offered - available.setWidth 64 ≤ offered := by
  bv_omega

theorem clamp_le (size : Size) : (if uint32Max < size then uint32Max else size) ≤ size := by
  split
  · exact BitVec.le_of_lt ‹_›
  · exact BitVec.le_refl _

/-- A check that fails the stream, and the rest of the adapter. -/
theorem fail_unless {c : Prop} [Decidable c] (hready : a.preflight input.size = .ok ())
    {exchange : Exchange} {e : Error} {rest : Processed} (hr : ¬c → Outcome a input output rest) :
    Outcome a input output (if c then a.fail exchange e else rest) := by
  split
  · exact .failed hready exchange e
  · rename_i hc
    exact hr hc

theorem sub_le_of_le {offered available : Size} (h : available ≤ offered) :
    offered - available ≤ offered := by
  bv_omega

theorem brotliProcess_outcome (library : Brotli) :
    Outcome a input output (brotliProcess library a input output finishing) := by
  refine opened_outcome fun hready => ?_
  split
  · exact fail_unless hready fun _ => .advanced hready _ _
      (sub_le_of_le (library.compress_input_le _ _))
      (sub_le_of_le (library.compress_output_le _ _)) rfl
  exact fail_unless hready fun _ => fail_unless hready fun _ => fail_unless hready fun _ =>
    fail_unless hready fun _ => .advanced hready _ _ (sub_le_of_le (library.decompress_input_le _))
      (sub_le_of_le (library.decompress_output_le _)) rfl

theorem probed_output_le {outputSize position : Size}
    (h : position ≤ if outputSize == 0#64 then 1#64 else outputSize) :
    (if outputSize == 0#64 then 0#64 else position) ≤ outputSize := by
  by_cases hprobing : outputSize = 0#64
  · simp [hprobing]
  · simpa [hprobing] using h

/-- The byte behind the limit does not count as output. -/
theorem probed_output_delivered (outputSize position consumed : Size) (data : ℕ) :
    (if outputSize == 0#64 then 0#64 else position) = Exchange.delivered
      { destination := if outputSize == 0#64 then .overflowProbe else .output data
        consumed := consumed
        produced := position } := by
  by_cases hprobing : outputSize = 0#64
  · simp [hprobing, Exchange.delivered]
  · simp [hprobing, Exchange.delivered]

theorem zlibProcess_outcome (library : ZlibNg) :
    Outcome a input output (zlibProcess library a input output finishing) := by
  refine opened_outcome fun hready => ?_
  refine fail_unless hready fun _ => fail_unless hready fun _ => fail_unless hready fun _ =>
    fail_unless hready fun _ => .advanced hready _ _ ?_ ?_ (probed_output_delivered _ _ _ _)
  · exact BitVec.le_trans (clamped_sub_le (library.input_le _)) (clamp_le input.size)
  apply probed_output_le
  by_cases hprobing : a.boundedOutputSize output.size = 0#64
  · simp only [hprobing, BEq.rfl, if_true]
    exact clamped_sub_le (library.output_le _)
  · simp only [beq_iff_eq, hprobing, if_false]
    exact BitVec.le_trans (clamped_sub_le (library.output_le _)) (clamp_le _)

theorem zstdProcess_outcome (library : Zstd) :
    Outcome a input output (zstdProcess library a input output finishing) := by
  refine opened_outcome fun hready => ?_
  split
  · unfold zstdEncode
    dsimp only
    split
    · exact .failed hready _ _
    · exact .advanced hready _ _ (library.compress_input_le _ _)
        (probed_output_le (library.compress_output_le _ _)) (probed_output_delivered _ _ _ _)
  unfold zstdDecode
  dsimp only
  split
  · exact .failed hready _ _
  exact fail_unless hready fun _ => fail_unless hready fun _ => fail_unless hready fun _ =>
    .advanced hready _ _ (library.decompress_input_le _)
      (probed_output_le (library.decompress_output_le _)) (probed_output_delivered _ _ _ _)

theorem process_outcome (libraries : Libraries) (codec : Codec) :
    Outcome a input output (codec.process libraries a input output finishing) := by
  cases codec with
  | zlibNg => exact zlibProcess_outcome libraries.zlibNg
  | brotli => exact brotliProcess_outcome libraries.brotli
  | zstd => exact zstdProcess_outcome libraries.zstd

/-- The counters are within their limits. -/
structure CodecAccounting.Within (a : CodecAccounting) : Prop where
  input : a.inputBytes.toNat ≤ a.limits.maximumInputBytes.toNat
  output : a.outputBytes.toNat ≤ a.limits.maximumOutputBytes.toNat
  work : a.workCalls.toNat ≤ a.limits.maximumWorkCalls.toNat

/-- The counters after a call are those before it and what the call reports. -/
structure Tallied (a : CodecAccounting) (result : Result CodecProgress) (a' : CodecAccounting) :
    Prop where
  limits_eq : a'.limits = a.limits
  within : a'.Within
  failure : ∀ e, result = .error e → a'.inputBytes = a.inputBytes ∧
    a'.outputBytes = a.outputBytes ∧ a.workCalls.toNat ≤ a'.workCalls.toNat
  success : ∀ progress, result = .ok progress →
    a'.inputBytes.toNat = a.inputBytes.toNat + progress.inputConsumed.toNat ∧
    a'.outputBytes.toNat = a.outputBytes.toNat + progress.outputProduced.toNat ∧
    a'.workCalls.toNat = a.workCalls.toNat + 1

theorem boundedOutputSize_le (a : CodecAccounting) (offered : Size) :
    a.boundedOutputSize offered ≤ offered ∧
      a.boundedOutputSize offered ≤ a.limits.maximumOutputBytes - a.outputBytes := by
  unfold CodecAccounting.boundedOutputSize
  split
  · rename_i h
    exact ⟨BitVec.le_of_lt h, BitVec.le_refl _⟩
  · rename_i h
    exact ⟨BitVec.le_refl _, BitVec.not_lt.mp h⟩

/-- A call that was let through has work left, so its count does not wrap. -/
theorem workCalls_succ (hready : a.preflight input.size = .ok ()) :
    (a.workCalls + 1).toNat = a.workCalls.toNat + 1 ∧
      (a.workCalls + 1).toNat ≤ a.limits.maximumWorkCalls.toNat := by
  have hwork := (preflight_eq_ok hready).2.1
  bv_omega

theorem tallied_record (h : a.Within) (hready : a.preflight input.size = .ok ())
    {p : CodecProgress} (hinput : p.inputConsumed ≤ input.size)
    (houtput : p.outputProduced ≤ a.boundedOutputSize output.size) :
    Tallied a (.ok p) (a.record p.inputConsumed p.outputProduced p.finished) := by
  obtain ⟨hsucc, hwork⟩ := workCalls_succ hready
  have hinputLimit := BitVec.le_trans hinput (preflight_eq_ok hready).2.2
  have houtputLimit := BitVec.le_trans houtput (boundedOutputSize_le a output.size).2
  have hwithinInput := h.input
  have hwithinOutput := h.output
  have hin : (a.inputBytes + p.inputConsumed).toNat =
      a.inputBytes.toNat + p.inputConsumed.toNat := by
    bv_omega
  have hout : (a.outputBytes + p.outputProduced).toNat =
      a.outputBytes.toNat + p.outputProduced.toNat := by
    bv_omega
  refine ⟨rfl, ⟨?_, ?_, hwork⟩, ?_, ?_⟩
  · change (a.inputBytes + p.inputConsumed).toNat ≤ a.limits.maximumInputBytes.toNat
    bv_omega
  · change (a.outputBytes + p.outputProduced).toNat ≤ a.limits.maximumOutputBytes.toNat
    bv_omega
  · intro e he
    cases he
  intro p hp
  cases hp
  exact ⟨hin, hout, hsucc⟩

theorem Outcome.tallied (h : Outcome a input output r) (hwithin : a.Within) :
    Tallied a r.result r.accounting := by
  cases h with
  | refused e hcode =>
    refine ⟨rfl, hwithin, fun _ _ => ⟨rfl, rfl, le_refl _⟩, ?_⟩
    intro p hp
    cases hp
  | stalled hready =>
    have houtput : 0#64 ≤ a.boundedOutputSize output.size := Nat.zero_le _
    exact tallied_record (p := ⟨0#64, 0#64, false, true, false⟩) hwithin hready (Nat.zero_le _)
      houtput
  | failed hready exchange e =>
    obtain ⟨hsucc, hwork⟩ := workCalls_succ hready
    refine ⟨rfl, ⟨hwithin.input, hwithin.output, hwork⟩, fun _ _ => ⟨rfl, rfl, ?_⟩, ?_⟩
    · exact le_trans (Nat.le_succ _) (le_of_eq hsucc.symm)
    · intro p hp
      cases hp
  | advanced hready exchange progress hinput houtput =>
    exact tallied_record hwithin hready hinput houtput

/-- A stream that has ended refuses every call. -/
theorem Outcome.inactive (h : Outcome a input output r) (ha : ¬a.Active) :
    (∃ e, r.result = .error e ∧ e.code = .invalidState) ∧ r.accounting = a ∧ r.exchange = none := by
  cases h with
  | refused e hcode => exact ⟨⟨e, rfl, hcode ha⟩, rfl, rfl⟩
  | stalled hready | failed hready | advanced hready => exact absurd (preflight_eq_ok hready).1 ha

/-- A stream ends when it reports so, and when a native call was followed by an error. -/
theorem Outcome.ends (h : Outcome a input output r)
    (hends : (∃ progress, r.result = .ok progress ∧ progress.finished = true) ∨
      ∃ e exchange, r.result = .error e ∧ r.exchange = some exchange) :
    ¬r.accounting.Active := by
  rintro ⟨_, hfin, hf⟩
  cases h with
  | refused e hcode =>
    rcases hends with ⟨p, hp, _⟩ | ⟨_, _, _, hx⟩
    · cases hp
    · cases hx
  | stalled hready =>
    rcases hends with ⟨p, hp, hend⟩ | ⟨_, _, he, _⟩
    · cases hp
      cases hend
    · cases he
  | failed hready exchange e => cases hf
  | advanced hready exchange progress =>
    rcases hends with ⟨p, hp, hend⟩ | ⟨_, _, he, _⟩
    · cases hp
      exact absurd (hend.symm.trans hfin) (by decide)
    · cases he

end

end Laghu.Codecs
