import Laghu.IoSliceLists

/-!
Sending a slice list. Whatever parts of the vectors the kernel accepts, what has been
sent and what is still listed make up what was appended; when every round accepts
something, the list empties.
-/

namespace Laghu.IoSlices

open Contract FlatMemory Views Segments List

variable {α : Type}

/-- The bytes appended by an event. -/
def appendedBy (m : Memory α) : Call × Output → List α
  | (.append bytes, .ok _) => slice m bytes.data bytes.size.toNat
  | _ => []

/-- The number of bytes that left the list in an event. -/
def consumedBy : Call × Output → ℕ
  | (_, .ok n) => n
  | _ => 0

def appended (m : Memory α) (trace : List (Call × Output)) : List α :=
  trace.flatMap (appendedBy m)

def consumed (trace : List (Call × Output)) : ℕ := (trace.map consumedBy).sum

/-- The bytes still listed. -/
def Sender.pending (m : Memory α) (s : Sender α) : List α := s.list.slices.flatMap (content m)

/-- No bytes left the list but those that were sent. -/
def OnlySent (trace : List (Call × Output)) : Prop :=
  ∀ e ∈ trace, ∀ bytes, e.1 ≠ .consume bytes

/-- What the events so far say about the list. -/
structure Streams (m : Memory α) (trace : List (Call × Output)) (s : Sender α) : Prop where
  sound : Sound s.list
  consumed_le : consumed trace ≤ (appended m trace).length
  pending : s.pending m = (appended m trace).drop (consumed trace)
  sent : OnlySent trace → s.sent = (appended m trace).take (consumed trace)

section

variable {m : Memory α} {trace : List (Call × Output)} {s s' : Sender α} {c : Call} {o : Output}

theorem appended_append (trace : List (Call × Output)) (e : Call × Output) :
    appended m (trace ++ [e]) = appended m trace ++ appendedBy m e := by
  simp [appended]

theorem consumed_append (trace : List (Call × Output)) (e : Call × Output) :
    consumed (trace ++ [e]) = consumed trace + consumedBy e := by
  simp [consumed]

theorem length_pending (h : Sound s.list) : (s.pending m).length = s.list.bytes.toNat := by
  rw [h.bytes_eq, Sender.pending, length_flatMap, total]
  congr 1
  exact map_congr_left fun x _ => length_content m x

theorem take_length_take (l : List α) (n : ℕ) : l.take n = l.take (l.take n).length := by
  rw [take_eq_take_iff, length_take]
  omega

/-- What one call does. -/
inductive Moves (m : Memory α) (s : Sender α) : Call → Output → Sender α → Prop
  | failed {c : Call} (e : Error) : Moves m s c (.error e) s
  | appended (bytes : ByteView) {s' : Sender α} (hsound : Sound s'.list)
      (hpending : s'.pending m = s.pending m ++ slice m bytes.data bytes.size.toNat)
      (hsent : s'.sent = s.sent) : Moves m s (.append bytes) (.ok 0) s'
  | consumed (bytes : Size) {s' : Sender α} (hbytes : bytes.toNat ≤ (s.pending m).length)
      (hsound : Sound s'.list) (hpending : s'.pending m = (s.pending m).drop bytes.toNat) :
      Moves m s (.consume bytes) (.ok bytes.toNat) s'
  | transmitted (accepted : ℕ) {s' : Sender α} (hsound : Sound s'.list)
      (hpending : s'.pending m = (s.pending m).drop ((s.pending m).take accepted).length)
      (hsent : s'.sent = s.sent ++ (s.pending m).take accepted) :
      Moves m s (.transmit accepted) (.ok ((s.pending m).take accepted).length) s'

section

variable (h : Sound s.list)
include h

theorem append_moves (bytes : ByteView) :
    ∃ o s', s.step m (.append bytes) = some (o, s') ∧ Moves m s (.append bytes) o s' := by
  rw [Sender.step]
  rcases append_spec h bytes with ⟨e, hrun⟩ | ⟨list, hrun, hsound, hslices⟩
  · rw [hrun]
    exact ⟨_, _, rfl, .failed e⟩
  rw [hrun]
  refine ⟨_, _, rfl, .appended bytes hsound ?_ rfl⟩
  rw [Sender.pending, hslices, flatMap_append]
  split
  · rename_i he
    rw [he]
    rfl
  · rw [flatMap_singleton]
    rfl

/-- Taking bytes off the front of the list. -/
theorem consume_pending {bytes : Size} (hbytes : bytes ≤ s.list.bytes) :
    ∃ list, s.list.consume bytes = some (.ok (), list) ∧ Sound list ∧
      list.slices.flatMap (content m) = (s.pending m).drop bytes.toNat ∧
      list.count ≤ s.list.count := by
  obtain ⟨list, hrun, hsound, hslices⟩ := consume_spec h hbytes
  refine ⟨list, hrun, hsound, ?_, ?_⟩
  · rw [hslices, flatMap_dropFront (length_content m) (content_cut m)]
    rfl
  have hlen : (dropFront sizeOf cut bytes.toNat s.list.slices).length ≤
      s.list.slices.length := length_dropFront_le _ _
  rw [← hslices, IoSliceList.slices, IoSliceList.slices, length_slice, length_slice] at hlen
  exact hlen

theorem consume_moves (bytes : Size) :
    ∃ o s', s.step m (.consume bytes) = some (o, s') ∧ Moves m s (.consume bytes) o s' := by
  rw [Sender.step]
  by_cases hbytes : bytes ≤ s.list.bytes
  · obtain ⟨list, hrun, hsound, hpending, _⟩ := consume_pending (m := m) h hbytes
    rw [hrun]
    refine ⟨_, _, rfl, .consumed bytes ?_ hsound hpending⟩
    rw [length_pending h]
    exact hbytes
  · obtain ⟨e, hrun⟩ := consume_error hbytes
    rw [hrun]
    exact ⟨_, _, rfl, .failed e⟩

theorem transmit_moves (accepted : ℕ) :
    ∃ o s', s.step m (.transmit accepted) = some (o, s') ∧ Moves m s (.transmit accepted) o s' ∧
      (s.list.count ≤ s.outputSize → (∃ n, o = .ok n) ∧ s'.outputSize = s.outputSize ∧
        s'.list.count ≤ s.list.count) := by
  rw [Sender.step]
  rcases translateIovecs_spec m s.list s.output s.outputSize with
    ⟨hsize, output, hrun, hgather⟩ | ⟨hsmall, e, hrun⟩
  · have hlen := length_pending (m := m) h
    have htaken : ((s.pending m).take accepted).length ≤ s.list.bytes.toNat := by
      rw [length_take, hlen]
      exact min_le_right _ _
    have hword : (BitVec.ofNat 64 ((s.pending m).take accepted).length).toNat =
        ((s.pending m).take accepted).length := by
      rw [BitVec.toNat_ofNat]
      exact Nat.mod_eq_of_lt (lt_of_le_of_lt htaken s.list.bytes.isLt)
    have hbytes : BitVec.ofNat 64 ((s.pending m).take accepted).length ≤ s.list.bytes := by
      rw [BitVec.le_def, hword]
      exact htaken
    obtain ⟨list, hconsume, hsound, hpending, hn⟩ := consume_pending (m := m) h hbytes
    rw [hword] at hpending
    rw [hrun]
    dsimp only
    rw [hgather, consumeWritten]
    change ∃ o s', (s.list.consume (BitVec.ofNat 64 ((s.pending m).take accepted).length) >>= _) =
      some (o, s') ∧ _
    rw [hconsume, Option.bind_eq_bind, Option.bind_some]
    exact ⟨_, _, rfl, .transmitted accepted hsound hpending rfl, fun _ => ⟨⟨_, rfl⟩, rfl, hn⟩⟩
  · rw [hrun]
    exact ⟨_, _, rfl, .failed e, fun hsize => absurd hsize (by omega)⟩

theorem step_moves (c : Call) : ∃ o s', s.step m c = some (o, s') ∧ Moves m s c o s' := by
  cases c with
  | append bytes => exact append_moves h bytes
  | consume bytes => exact consume_moves h bytes
  | transmit accepted =>
    obtain ⟨o, s', hrun, hmoves, _⟩ := transmit_moves h accepted
    exact ⟨o, s', hrun, hmoves⟩

theorem moves_of_step (hstep : s.step m c = some (o, s')) : Moves m s c o s' := by
  obtain ⟨o', t, hrun, hmoves⟩ := step_moves (m := m) h c
  rw [hstep] at hrun
  cases hrun
  exact hmoves

end

theorem OnlySent.of_append {e : Call × Output} (h : OnlySent (trace ++ [e])) :
    OnlySent trace ∧ ∀ bytes, e.1 ≠ .consume bytes :=
  ⟨fun e' he' => h e' (mem_append_left _ he'), h e (mem_append_right _ (mem_singleton_self e))⟩

theorem Streams.step (h : Streams m trace s) (hmoves : Moves m s c o s') :
    Streams m (trace ++ [(c, o)]) s' := by
  have hle := h.consumed_le
  have hpending := h.pending
  have hr : (s.pending m).length = (appended m trace).length - consumed trace := by
    rw [hpending, length_drop]
  cases hmoves with
  | failed e =>
    have happ : appendedBy m (c, .error e) = [] := by cases c <;> rfl
    have hcons : consumedBy (c, .error e) = 0 := rfl
    refine ⟨h.sound, ?_, ?_, ?_⟩
    · rw [appended_append, consumed_append, happ, hcons, append_nil]
      exact hle
    · rw [appended_append, consumed_append, happ, hcons, append_nil]
      exact hpending
    intro honly
    rw [appended_append, consumed_append, happ, hcons, append_nil]
    exact h.sent honly.of_append.1
  | appended bytes hsound hnew hsent =>
    have happ : appendedBy m (.append bytes, .ok 0) = slice m bytes.data bytes.size.toNat := rfl
    have hcons : consumedBy (.append bytes, .ok 0) = 0 := rfl
    refine ⟨hsound, ?_, ?_, ?_⟩
    · rw [appended_append, consumed_append, hcons, length_append]
      omega
    · rw [appended_append, consumed_append, hcons, hnew, hpending, happ, add_zero,
        drop_append_of_le_length hle]
    intro honly
    rw [appended_append, consumed_append, hcons, add_zero, hsent, take_append_of_le_length hle]
    exact h.sent honly.of_append.1
  | consumed bytes hbytes hsound hnew =>
    have happ : appendedBy m (.consume bytes, .ok bytes.toNat) = [] := rfl
    have hcons : consumedBy (.consume bytes, .ok bytes.toNat) = bytes.toNat := rfl
    refine ⟨hsound, ?_, ?_, ?_⟩
    · rw [appended_append, consumed_append, happ, hcons, append_nil]
      omega
    · rw [appended_append, consumed_append, happ, hcons, append_nil, hnew, hpending, drop_drop]
    · intro honly
      exact absurd rfl (honly.of_append.2 bytes)
  | transmitted accepted hsound hnew hsent =>
    have hw : ((s.pending m).take accepted).length ≤ (s.pending m).length := by
      rw [length_take]
      exact min_le_right _ _
    have htaken := take_length_take (s.pending m) accepted
    have happ : ∀ n, appendedBy m (.transmit accepted, .ok n) = [] := fun _ => rfl
    have hcons : ∀ n, consumedBy (.transmit accepted, .ok n) = n := fun _ => rfl
    refine ⟨hsound, ?_, ?_, ?_⟩
    · rw [appended_append, consumed_append, happ, hcons, append_nil]
      omega
    · rw [appended_append, consumed_append, happ, hcons, append_nil, hnew, hpending, drop_drop]
    intro honly
    rw [appended_append, consumed_append, happ, hcons, append_nil, hsent,
      h.sent honly.of_append.1, take_add, ← hpending, ← htaken]

theorem run_streams {s₀ : Sender α} (hstart : s₀.Started)
    (hrun : Runs.Run (Sender.system m) s₀ trace s) : Streams m trace s := by
  have hbegin : Streams m [] s₀ := by
    obtain ⟨hn, hbytes, hsent⟩ := hstart
    have hslices : s₀.list.slices = [] := by rw [IoSliceList.slices, hn, slice_zero]
    refine ⟨⟨?_, ?_, ?_⟩, Nat.zero_le _, ?_, fun _ => hsent⟩
    · rw [hn]
      exact Nat.zero_le _
    · rw [hbytes, hslices]
      rfl
    · rw [hslices]
      exact fun x hx => absurd hx not_mem_nil
    · rw [Sender.pending, hslices]
      rfl
  apply hrun.history _ hbegin
  intro trace s c o s' hstreams _ hstep
  exact hstreams.step (moves_of_step hstreams.sound hstep)

theorem slices_of_bytes (h : Sound s.list) (hbytes : s.list.bytes.toNat = 0) :
    s.list.slices = [] := by
  rw [eq_nil_iff_forall_not_mem]
  intro x hx
  have hpos := h.nonempty x hx
  have hle : sizeOf x ≤ total sizeOf s.list.slices := size_le_total hx
  rw [← h.bytes_eq] at hle
  omega

/-- Rounds in which something is accepted send the whole list. -/
theorem drain (h : Sound s.list) (hsize : s.list.count ≤ s.outputSize) (schedule : List ℕ)
    (hpos : ∀ accepted ∈ schedule, 0 < accepted) (hlong : s.list.bytes.toNat ≤ schedule.length) :
    ∃ events s', events.map Prod.fst = schedule.map Call.transmit ∧
      Runs.Run (Sender.system m) s events s' ∧ s'.list.slices = [] ∧
      s'.sent = s.sent ++ s.pending m := by
  induction schedule generalizing s with
  | nil =>
    have hslices := slices_of_bytes h (Nat.le_zero.mp hlong)
    refine ⟨[], s, rfl, .refl s, hslices, ?_⟩
    rw [Sender.pending, hslices, flatMap_nil, append_nil]
  | cons accepted rest ih =>
    obtain ⟨hf, hr⟩ := forall_mem_cons.mp hpos
    obtain ⟨o, s₁, hstep, hmoves, hok⟩ := transmit_moves (m := m) h accepted
    obtain ⟨⟨n, rfl⟩, hout, hn⟩ := hok hsize
    cases hmoves with
    | transmitted _ hsound hpending hsent =>
      have hlen := length_pending (m := m) h
      have hlen₁ := length_pending (m := m) hsound
      rw [hpending, length_drop, length_take] at hlen₁
      rw [length_cons] at hlong
      obtain ⟨events, s', hevents, hrun, he, hall⟩ := ih hsound
        (by rw [hout]; exact le_trans hn hsize) hr (by omega)
      refine ⟨(.transmit accepted, _) :: events, s', ?_, .cons trivial hstep hrun, he, ?_⟩
      · rw [map_cons, map_cons, hevents]
      rw [hall, hsent, hpending, append_assoc]
      congr 1
      have hsplit := take_append_drop ((s.pending m).take accepted).length (s.pending m)
      rwa [← take_length_take] at hsplit

end

/-- In every run over one list, for every memory, the listed bytes are the appended ones
without those that were consumed, the byte count is exact and no slice is empty; no call
terminates the program, and one that fails changes nothing. When bytes leave the list
only by being sent, what was sent and what is listed make up what was appended, and
rounds in which the kernel accepts at least one byte send it all. -/
theorem io_slice_list_faithful (m : Memory α) {s₀ s : Sender α} {trace : List (Call × Output)}
    (hstart : s₀.Started) (hrun : Runs.Run (Sender.system m) s₀ trace s) :
    (s.pending m = (appended m trace).drop (consumed trace) ∧
      consumed trace ≤ (appended m trace).length) ∧
    s.list.bytes.toNat = total sizeOf s.list.slices ∧
    (∀ x ∈ s.list.slices, 0 < sizeOf x) ∧
    (∀ c, ∃ o s', s.step m c = some (o, s') ∧ ∀ e, o = .error e → s' = s) ∧
    (OnlySent trace → s.sent ++ s.pending m = appended m trace ∧
      ∀ schedule : List ℕ, (∀ accepted ∈ schedule, 0 < accepted) →
        s.list.bytes.toNat ≤ schedule.length → s.list.count ≤ s.outputSize →
        ∃ events s', events.map Prod.fst = schedule.map Call.transmit ∧
          Runs.Run (Sender.system m) s events s' ∧ s'.list.slices = [] ∧
          s'.sent = appended m trace) := by
  have hstreams := run_streams hstart hrun
  refine ⟨⟨hstreams.pending, hstreams.consumed_le⟩, hstreams.sound.bytes_eq,
    hstreams.sound.nonempty, ?_, ?_⟩
  · intro c
    obtain ⟨o, s', hstep, hmoves⟩ := step_moves (m := m) hstreams.sound c
    refine ⟨o, s', hstep, ?_⟩
    rintro e rfl
    cases hmoves with
    | failed => rfl
  intro honly
  have hall : s.sent ++ s.pending m = appended m trace := by
    rw [hstreams.sent honly, hstreams.pending, List.take_append_drop]
  refine ⟨hall, fun schedule hpositive hlong hsize => ?_⟩
  obtain ⟨events, s', hevents, hrun', hempty, hsent⟩ :=
    drain (m := m) hstreams.sound hsize schedule hpositive hlong
  exact ⟨events, s', hevents, hrun', hempty, hsent.trans hall⟩

def sampleSender : Sender ℕ where
  list := { storage := fun _ => {}, capacity := 2 }
  output := fun _ => {}
  outputSize := 2

/-- Three bytes at 10 and two at 20, of which the kernel accepts four. -/
def sampleTrace : List (Call × Output) :=
  [(.append { data := 10, size := 3#64 }, .ok 0), (.append { data := 20, size := 2#64 }, .ok 0),
   (.transmit 4, .ok 4)]

theorem sampleTrace_run : ∃ s, Runs.Run (Sender.system id) sampleSender sampleTrace s ∧
    s.sent = [10, 11, 12, 20] ∧ s.list.bytes = 1#64 ∧ s.list.count = 1 ∧ s.outputSize = 2 :=
  ⟨_, .cons trivial rfl (.cons trivial rfl (.cons trivial rfl (.refl _))), rfl, rfl, rfl, rfl⟩

theorem sampleTrace_onlySent : OnlySent sampleTrace := by
  intro e he bytes heq
  simp only [sampleTrace, mem_cons, not_mem_nil, or_false] at he
  rcases he with rfl | rfl | rfl <;> cases heq

theorem io_slice_list_faithful_partial :
    ∃ s events s', Runs.Run (Sender.system id) sampleSender sampleTrace s ∧
      s.sent = [10, 11, 12, 20] ∧ Runs.Run (Sender.system id) s events s' ∧
      s'.sent = [10, 11, 12, 20, 21] := by
  obtain ⟨s, hrun, hsent, hbytes, hcount, hsize⟩ := sampleTrace_run
  obtain ⟨_, hdrain⟩ :=
    (io_slice_list_faithful id ⟨rfl, rfl, rfl⟩ hrun).2.2.2.2 sampleTrace_onlySent
  obtain ⟨events, s', _, hrun', _, hall⟩ := hdrain [7] (by decide) (by rw [hbytes]; decide)
    (by rw [hcount, hsize]; decide)
  exact ⟨s, events, s', hrun, hsent, hrun', hall⟩

end Laghu.IoSlices
