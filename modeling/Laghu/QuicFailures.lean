import Laghu.QuicSessions

/-!
What an operation that fails has done to the native connection. A failed random request
is reported when the native call has returned, whatever that call has achieved, and only
a code that ends the connection makes a session unusable. So an error hides a packet,
consumed bytes or a new stream exactly if a random request failed while they were produced,
or an earlier one was left to be reported. A connection that has ended stays so.
-/

namespace Laghu.QuicSessions

open Contract List Option Output State World
open ObjectTable (Table)

/-- The operations that produce something, with every random request granted. -/
def Call.Granted : Call → Prop
  | .writePacket _ _ reply => ∀ callback ∈ reply.callbacks, callback.Granted
  | .openBidirectionalStream _ reply => ∀ callback ∈ reply.callbacks, callback.Granted
  | .openUnidirectionalStream _ reply => ∀ callback ∈ reply.callbacks, callback.Granted
  | _ => True

/-- The operations that look for a code that ends the connection, with such a code. The
operations on streams do not look for one. -/
def Call.Ends (lib : Ngtcp2) : Call → Prop
  | .receivePacket _ _ reply => (reply.result < 0 && terminalError lib reply.result) = true
  | .writePacket _ _ reply =>
    (reply.result.toInt < 0 && terminalError lib (State.toInt32 reply.result)) = true
  | .handleExpiry _ reply =>
    (reply.result = lib.idleClose || (reply.result < 0 && terminalError lib reply.result)) = true
  | _ => False

/-- The operations on `session` that produce something for the caller. -/
def Call.Produces (session : ℕ) : Call → Prop
  | .writePacket i _ _ => i = session
  | .openBidirectionalStream i _ => i = session
  | .openUnidirectionalStream i _ => i = session
  | _ => False

/-- The library takes no stream bytes when it returns a negative code. -/
def Call.Documented : Call → Prop
  | .writePacket _ _ reply => reply.result.toInt < 0 → reply.consumed.toInt ≤ 0
  | _ => True

/-- The operations on the state of a session: which session, what it answers when the
session cannot be used, and the work on the state. -/
def Call.operation (lib : Ngtcp2) :
    Call → Option (ℕ × (Error → Output) × (State → Output × State))
  | .receivePacket session path reply =>
    some (session, fun e => .done (.error e) none, State.receivePacket lib path reply)
  | .writePacket session output reply =>
    some (session, fun e => .wrote (.error e) none, State.writePacket lib output reply)
  | .packetTransmitted session =>
    some (session, fun e => .transmitted (.error e), State.packetTransmitted)
  | .openBidirectionalStream session reply =>
    some (session, fun e => .opened (.error e) none, State.openBidirectionalStream lib reply)
  | .openUnidirectionalStream session reply =>
    some (session, fun e => .opened (.error e) none, State.openUnidirectionalStream lib reply)
  | .resetStream session reply =>
    some (session, fun e => .done (.error e) none, State.resetStream lib reply)
  | .stopSending session reply =>
    some (session, fun e => .done (.error e) none, State.stopSending lib reply)
  | .handleExpiry session reply =>
    some (session, fun e => .done (.error e) none, State.handleExpiry lib reply)
  | _ => none

def Output.Failed : Output → Prop
  | .wrote (.error _) _ => True
  | .opened (.error _) _ => True
  | _ => False

/-- The library generated no packet and consumed no stream bytes. -/
def WriteReply.Lossless (reply : WriteReply) : Prop :=
  reply.result.toInt ≤ 0 ∧ reply.consumed.toInt ≤ 0

/-- The library opened no stream. -/
def OpenReply.Lossless (reply : OpenReply) : Prop := reply.result ≠ 0

/-- The native call, if there was one, produced nothing. -/
def Output.Lossless : Output → Prop
  | .wrote _ (some reply) => reply.Lossless
  | .opened _ (some reply) => reply.Lossless
  | _ => True

/-- What the library answers says that it produced nothing. -/
def Call.Lossless : Call → Prop
  | .writePacket _ _ reply => reply.Lossless
  | .openBidirectionalStream _ reply => reply.Lossless
  | .openUnidirectionalStream _ reply => reply.Lossless
  | _ => True

/-- The library was called. -/
def Output.Called : Output → Prop
  | .wrote _ native => native.isSome = true
  | .opened _ native => native.isSome = true
  | _ => False

/-- What the state behind a session is like. -/
def World.Has (w : World) (session : ℕ) (P : State → Prop) : Prop :=
  ∃ x t s, w.sessions.get? session = some x ∧ x.target = some t ∧ w.states.get? t.state = some s ∧
    P s

/-- The session can no longer be used. -/
def World.Terminal (w : World) (session : ℕ) : Prop := w.Has session (·.terminal = true)

section

variable {lib : Ngtcp2} {s : State}

/-- A failed request is noted, and nothing else. -/
theorem callback_eq (s : State) (c : Callback) :
    (s.callback c).terminal = s.terminal ∧
      ((s.callback c).randomFailed = false ↔ s.randomFailed = false ∧ c.Granted) := by
  cases c with
  | randomFill filled | pathChallenge filled =>
    cases filled <;> simp [callback, Callback.Granted]
  | newConnectionId identifier token =>
    cases identifier <;> cases token <;> simp [callback, Callback.Granted]

theorem callbacks_eq (s : State) (callbacks : List Callback) :
    (s.callbacks callbacks).terminal = s.terminal ∧
      ((s.callbacks callbacks).randomFailed = false ↔
        s.randomFailed = false ∧ ∀ c ∈ callbacks, c.Granted) := by
  induction callbacks generalizing s with
  | nil => exact ⟨rfl, by simp [callbacks]⟩
  | cons c rest ih =>
    obtain ⟨hterminal, hclear⟩ := ih (s.callback c)
    refine ⟨hterminal.trans (callback_eq s c).1, hclear.trans ?_⟩
    rw [(callback_eq s c).2, forall_mem_cons, and_assoc]

/-- Asking reports a failed request, and leaves the rest of the state. -/
theorem requireRandom_cases (lib : Ngtcp2) (s : State) :
    s.randomFailed = false ∧ s.requireRandom lib = (.ok (), s) ∨
      s.randomFailed = true ∧ ∃ e t, s.requireRandom lib = (.error e, t) ∧
        t.terminal = s.terminal := by
  unfold requireRandom
  cases s.randomFailed with
  | false => exact .inl ⟨rfl, rfl⟩
  | true => exact .inr ⟨rfl, _, _, rfl, rfl⟩

theorem note_eq (s : State) (ended : Bool) : (s.note ended).randomFailed = s.randomFailed ∧
    ((s.note ended).terminal = true ↔ s.terminal = true ∨ ended = true) := by
  cases ended <;> simp [note]

theorem writePacket_lossless (output : Views.MutableByteView) (reply : WriteReply)
    (husable : s.terminal = false) :
    ((s.writePacket lib output reply).1.Failed →
      (s.writePacket lib output reply).1.Lossless ∨
        (s.writePacket lib output reply).2.terminal = true) ↔
      ¬ (s.writePacket lib output reply).1.Called ∨
      (s.randomFailed = false ∧ ∀ c ∈ reply.callbacks, c.Granted) ∧
        (reply.result.toInt < 0 → reply.consumed.toInt ≤ 0) ∨ reply.Lossless ∨
      (reply.result.toInt < 0 && terminalError lib (toInt32 reply.result)) = true := by
  obtain ⟨hterminal, hgranted⟩ := callbacks_eq s reply.callbacks
  unfold writePacket
  split
  · simp [Lossless, Called]
  split
  · simp [Lossless, Called]
  dsimp only
  generalize hends : (decide (reply.result.toInt < 0) &&
    terminalError lib (toInt32 reply.result)) = ended
  obtain ⟨hnoted, hended⟩ := note_eq (s.callbacks reply.callbacks) ended
  rw [hterminal, husable] at hended
  rw [← hgranted, ← hnoted]
  rcases requireRandom_cases lib ((s.callbacks reply.callbacks).note ended) with
    ⟨hclear, hasked⟩ | ⟨hfailed, e, t, hasked, ht⟩
  · rw [hasked]
    dsimp only
    split
    · next hneg =>
      have hlost : reply.Lossless ↔ reply.consumed.toInt ≤ 0 := by
        unfold WriteReply.Lossless
        omega
      simp [Failed, Lossless, Called, hclear, hneg, hlost, hended]
    · next hpos => simp [Failed, hclear, hpos]
  · rw [hasked]
    simp [Failed, Lossless, Called, hfailed, ht, hended]

theorem openStream_lossless (reply : OpenReply) (husable : s.terminal = false) :
    ((s.openStream lib reply).1.Failed → (s.openStream lib reply).1.Lossless ∨
        (s.openStream lib reply).2.terminal = true) ↔
      ¬ (s.openStream lib reply).1.Called ∨
      (s.randomFailed = false ∧ ∀ c ∈ reply.callbacks, c.Granted) ∨ reply.Lossless := by
  obtain ⟨hterminal, hgranted⟩ := callbacks_eq s reply.callbacks
  rw [← hgranted]
  unfold openStream
  rcases requireRandom_cases lib (s.callbacks reply.callbacks) with
    ⟨hclear, hasked⟩ | ⟨hfailed, e, t, hasked, ht⟩
  · rw [hasked]
    dsimp only
    split
    · next hcode => simp [Lossless, OpenReply.Lossless, hclear, hcode]
    · simp [Failed, hclear]
  · rw [hasked]
    simp [Failed, Lossless, Called, hfailed, ht, hterminal, husable]

variable {P : State → Prop}

/-- What holds once the random requests were asked about, and is kept by the work that
follows, holds in the end. -/
theorem after_random (lib : Ngtcp2) (s : State) (failed : Error → Output)
    (work : State → Output × State) (hasked : P (s.requireRandom lib).2)
    (hwork : ∀ t, P t → P (work t).2) :
    P (match s.requireRandom lib with
      | (.error e, t) => (failed e, t)
      | (.ok (), t) => work t).2 := by
  split
  · next heq =>
    rw [heq] at hasked
    exact hasked
  next heq =>
  rw [heq] at hasked
  exact hwork _ hasked

theorem handleExpiry_after (reply : Reply)
    (hasked : P (((s.callbacks reply.callbacks).note (reply.result = lib.idleClose ||
      (reply.result < 0 && terminalError lib reply.result))).requireRandom lib).2) :
    P (s.handleExpiry lib reply).2 := by
  refine after_random lib _ _ _ hasked fun t ht => ?_
  split <;> exact ht

theorem receivePacket_after (path : QuicPath) (reply : Reply)
    (hstart : storePath path = false → P s)
    (hasked : P (((s.callbacks reply.callbacks).note
      (reply.result < 0 && terminalError lib reply.result)).requireRandom lib).2) :
    P (s.receivePacket lib path reply).2 := by
  unfold receivePacket
  split
  · next hpath => exact hstart (by simpa using hpath)
  · refine after_random lib _ _ _ hasked fun t ht => ?_
    split <;> exact ht

end

namespace World

variable {lib : Ngtcp2} {w w' : World} {session : ℕ} {c : Call} {o : Output}

variable {refused : Error → Output} {work : State → Output × State}

/-- An operation is refused, or it works on the state behind the session. -/
theorem operate_cases (hrun : w.operate session refused work = some (o, w')) :
    (∃ e, o = refused e ∧ w' = w) ∨ ∃ x t s, w.sessions.get? session = some x ∧ x.target = some t ∧
        w.states.get? t.state = some s ∧ s.terminal = false ∧ o = (work s).1 ∧
        w' = { w with states := w.states.set t.state (work s).2 } := by
  obtain ⟨valid, hv, hrun⟩ := bind_eq_some_iff.mp hrun
  obtain ⟨x, hsession, hv⟩ := bind_eq_some_iff.mp hv
  cases htgt : x.target with
  | none =>
    rw [htgt] at hv
    cases hv
    cases hrun
    exact .inl ⟨_, rfl, rfl⟩
  | some t =>
    rw [htgt] at hv
    dsimp only at hv
    split at hv
    · cases hv
      cases hrun
      exact .inl ⟨_, rfl, rfl⟩
    obtain ⟨s, hst, hv⟩ := bind_eq_some_iff.mp hv
    split at hv
    · cases hv
      cases hrun
      exact .inl ⟨_, rfl, rfl⟩
    next husable =>
    cases hv
    cases hrun
    exact .inr ⟨x, t, s, hsession, htgt, hst, Bool.not_eq_true _ ▸ husable, rfl, rfl⟩

/-- Everything a call can do to the states. An operation is refused or works on the state
behind its session; any other call adds a state, deletes one or leaves them alone. -/
inductive Changes (lib : Ngtcp2) (w : World) (c : Call) : Output → Table State → Prop
  | refused {i : ℕ} {refused : Error → Output} {work : State → Output × State} (e : Error)
      (operation : c.operation lib = some (i, refused, work)) :
      Changes lib w c (refused e) w.states
  | worked {i : ℕ} {refused : Error → Output} {work : State → Output × State}
      {x : QuicSession} {t : Target} {s : State}
      (operation : c.operation lib = some (i, refused, work))
      (session : w.sessions.get? i = some x) (target : x.target = some t)
      (state : w.states.get? t.state = some s) (usable : s.terminal = false) :
      Changes lib w c (work s).1 (w.states.set t.state (work s).2)
  | added {creation : Creation} {s : State} (o : Output) (other : c.operation lib = none)
      (create : creation.create lib = .ok s) : Changes lib w c o (w.states.push s)
  | deleted (o : Output) (other : c.operation lib = none) (k : ℕ) :
      Changes lib w c o (w.states.erase k)
  | unchanged (o : Output) (other : c.operation lib = none) : Changes lib w c o w.states

theorem operate_changes (hop : c.operation lib = some (session, refused, work))
    (hrun : w.operate session refused work = some (o, w')) : Changes lib w c o w'.states := by
  rcases operate_cases hrun with ⟨e, rfl, rfl⟩ | ⟨x, t, s, hsession, htgt, hst, husable, rfl, rfl⟩
  · exact .refused e hop
  · exact .worked hop hsession htgt hst husable

theorem release_changes {x : QuicSession} (ho : c.operation lib = none)
    (hrun : w.release x = some w') : Changes lib w c o w'.states := by
  unfold release at hrun
  split at hrun
  · cases hrun
    exact .unchanged o ho
  split at hrun
  · obtain ⟨_, _, hrun⟩ := bind_eq_some_iff.mp hrun
    cases hrun
    exact .deleted o ho _
  · cases hrun
    exact .unchanged o ho

theorem step_changes (hstep : w.step lib c = some (o, w')) : Changes lib w c o w'.states := by
  cases c with
  | create creation arena =>
    unfold step at hstep
    dsimp only at hstep
    split at hstep
    · cases hstep
      exact .unchanged _ rfl
    next hcre =>
    cases hstep
    exact .added _ rfl hcre
  | expiryNs i reply =>
    obtain ⟨x, _, hstep⟩ := bind_eq_some_iff.mp hstep
    split at hstep <;>
    · cases hstep
      exact .unchanged _ rfl
  | moveConstruct source =>
    obtain ⟨x, _, hstep⟩ := bind_eq_some_iff.mp hstep
    cases hstep
    exact .unchanged _ rfl
  | moveAssign target source =>
    unfold step at hstep
    dsimp only at hstep
    split at hstep
    · cases hstep
      exact .unchanged _ rfl
    obtain ⟨_, _, hstep⟩ := bind_eq_some_iff.mp hstep
    obtain ⟨_, _, hstep⟩ := bind_eq_some_iff.mp hstep
    obtain ⟨t, hrel, hstep⟩ := bind_eq_some_iff.mp hstep
    cases hstep
    change Changes lib w _ _ t.states
    exact release_changes rfl hrel
  | destroy i =>
    obtain ⟨_, _, hstep⟩ := bind_eq_some_iff.mp hstep
    obtain ⟨t, hrel, hstep⟩ := bind_eq_some_iff.mp hstep
    cases hstep
    change Changes lib w _ _ t.states
    exact release_changes rfl hrel
  | reset arena =>
    unfold step at hstep
    dsimp only at hstep
    split at hstep <;>
    · cases hstep
      exact .unchanged _ rfl
  | _ => exact operate_changes rfl hstep

/-- An operation that is worked on leaves the state of its session to be read. -/
theorem has_worked {x : QuicSession} {t : Target} {s r : State} {P : State → Prop}
    (hsession : w.sessions.get? session = some x) (htarget : x.target = some t)
    (hstate : w.states.get? t.state = some s) :
    (w.Has session P ↔ P s) ∧
      (Has { w with states := w.states.set t.state r } session P ↔ P r) := by
  have hunique : ∀ {states : Table State} {q : State}, states.get? t.state = some q →
      (Has { w with states := states } session P ↔ P q) := by
    intro states q hq
    refine ⟨fun ⟨y, u, p, hy, hu, hp, h⟩ => ?_, fun h => ⟨x, t, q, hsession, htarget, hq, h⟩⟩
    cases hsession.symm.trans hy
    cases htarget.symm.trans hu
    cases hq.symm.trans hp
    exact h
  exact ⟨hunique hstate, hunique (Table.get?_set_self _ hstate)⟩

end World

/-- An error stands for nothing produced, or for a session that has ended, exactly if the
library was not called, or no failed request was left to be reported and those of the call
were granted, or its answer produced nothing, or its code ends the connection. -/
theorem failed_operation_lossless {lib : Ngtcp2} {w w' : World} {session : ℕ} {c : Call}
    {o : Output} (hproduces : c.Produces session) (hstep : w.step lib c = some (o, w')) :
    (o.Failed → o.Lossless ∨ w'.Terminal session) ↔
      ¬ o.Called ∨ (w.Has session (·.randomFailed = false) ∧ c.Granted) ∧ c.Documented ∨
        c.Lossless ∨ c.Ends lib := by
  cases c with
  | writePacket i output reply =>
    cases hproduces
    rcases operate_cases hstep with
      ⟨e, rfl, _⟩ | ⟨_, _, s, hsession, htarget, hstate, husable, rfl, rfl⟩
    · simp [Lossless, Called]
    · rw [Terminal, (has_worked hsession htarget hstate).2,
        (has_worked (r := s) hsession htarget hstate).1]
      exact writePacket_lossless output reply husable
  | openBidirectionalStream i reply | openUnidirectionalStream i reply =>
    cases hproduces
    rcases operate_cases hstep with
      ⟨e, rfl, _⟩ | ⟨_, _, s, hsession, htarget, hstate, husable, rfl, rfl⟩
    · simp [Lossless, Called]
    · rw [Terminal, (has_worked hsession htarget hstate).2,
        (has_worked (r := s) hsession htarget hstate).1]
      exact (openStream_lossless reply husable).trans
        (or_congr Iff.rfl (or_congr (and_iff_left trivial).symm (or_iff_left id).symm))
  | _ => exact hproduces.elim

/-- The values in the library's header. -/
def ngtcp2 : Ngtcp2 where
  noMemory := -501
  streamIdBlocked := -206
  streamDataBlocked := -208
  invalidArgument := -201
  crypto := -213
  retry := -231
  dropConnection := -232
  draining := -224
  closing := -223
  idleClose := -238
  callbackFailure := -502
  isFatal code := code < -500
  maximumUdpPayloadSize := 1200#64
  maximumTransmitPayloadSize := 1452#64

theorem sampleWorker_ne_zero : 1#64 ≠ 0#64 := by decide

def sampleWorker : WorkerId := ⟨1#64, sampleWorker_ne_zero⟩

def sampleEndpoint : QuicEndpoint := { port := 443#16 }

theorem sampleId_length : [7#8].length ≤ 20 := by decide

def sampleId : QuicConnectionId :=
  ⟨[7#8], sampleWorker, ⟨1#64, sampleWorker_ne_zero⟩, List.cons_ne_nil _ _, sampleId_length⟩

/-- A client with packets of 1200 bytes. -/
def sampleCreation : Creation where
  role := .client
  destination := sampleId
  source := sampleId
  initialPath := ⟨sampleEndpoint, sampleEndpoint⟩
  maximumPacketBytes := 1200#64
  callbacks := ⟨true, true, true, true, true, true⟩
  poolWorker := sampleWorker
  pin := .ok ()
  storage := true
  native := { result := 0 }

def sampleOutput : Views.MutableByteView := { data := 4096, size := 1200#64 }

def emptyWorld : World := { generations := fun _ => 1#64 }

/-- The session that `sampleCreation` creates. -/
def World.sampleWorld : World where
  states := ⟨[some { maximumPacketBytes := 1200#64 }]⟩
  sessions := ⟨[some { target := some ⟨0, 0, 1#64⟩ }]⟩
  generations := fun _ => 1#64

theorem failed_operation_lossless_blocked : ∃ w w' o, Runs.Run (World.system ngtcp2) emptyWorld
        [(.create sampleCreation 0, .created (.ok ()))] w ∧
      w.step ngtcp2 (.writePacket 0 sampleOutput
        { callbacks := [.randomFill true], result := -208#64, consumed := -1#64 }) = some (o, w') ∧
      o.Failed ∧ (o.Lossless ∨ w'.Terminal 0) := by
  have hrun : Runs.Run (system ngtcp2) emptyWorld
      [(.create sampleCreation 0, .created (.ok ()))] .sampleWorld := .single trivial rfl
  have hstep : sampleWorld.step ngtcp2 (.writePacket 0 sampleOutput
      { callbacks := [.randomFill true], result := -208#64, consumed := -1#64 }) = some (_, _) :=
    rfl
  refine ⟨_, _, _, hrun, hstep, trivial, (failed_operation_lossless (by exact rfl) hstep).mpr
    (.inr (.inl ⟨⟨⟨_, _, _, rfl, rfl, rfl, rfl⟩, ?_⟩, fun _ => by decide⟩)) trivial⟩
  intro callback hcallback
  cases List.mem_singleton.mp hcallback
  rfl

/-- A random request fails while the library writes a packet of 1200 bytes with 100 bytes
of the stream: the caller gets an error, and the session goes on without the packet. The
same happens to a stream that is opened after `reset_stream` met with a failed request. -/
theorem random_failure_loses_packet : (∃ w w' o, Runs.Run (World.system ngtcp2) emptyWorld
        [(.create sampleCreation 0, .created (.ok ()))] w ∧
      w.step ngtcp2 (.writePacket 0 sampleOutput
        { callbacks := [.randomFill false], result := 1200#64, consumed := 100#64 }) =
          some (o, w') ∧
      o.Failed ∧ ¬ o.Lossless ∧ ¬ w'.Terminal 0) ∧
    ∃ w w' o, Runs.Run (World.system ngtcp2) emptyWorld
        [(.create sampleCreation 0, .created (.ok ())),
         (.resetStream 0 { callbacks := [.randomFill false], result := 0 },
          .done (.ok ()) (some { callbacks := [.randomFill false], result := 0 }))] w ∧
      w.step ngtcp2 (.openBidirectionalStream 0 { result := 0, stream := 4#64 }) = some (o, w') ∧
      o.Failed ∧ ¬ o.Lossless ∧ ¬ w'.Terminal 0 := by
  have hrun : Runs.Run (system ngtcp2) emptyWorld
      [(.create sampleCreation 0, .created (.ok ()))] _ := .single trivial rfl
  refine ⟨⟨_, _, _, hrun, rfl, trivial, ?_, ?_⟩,
    _, _, _, .cons trivial rfl (.single ⟨_, rfl⟩ rfl), rfl, trivial, ?_, ?_⟩
  · exact fun hlossless => absurd hlossless.1 (by decide)
  · rintro ⟨_, _, _, hsession, htarget, hstate, hterminal⟩
    cases hsession
    cases htarget
    cases hstate
    cases hterminal
  · exact fun hlossless => hlossless rfl
  rintro ⟨_, _, _, hsession, htarget, hstate, hterminal⟩
  cases hsession
  cases htarget
  cases hstate
  cases hterminal

theorem noted_terminal (lib : Ngtcp2) (s : State) {ended : Bool} (h : ended = true) :
    ((s.note ended).requireRandom lib).2.terminal = true := by
  subst h
  unfold requireRandom
  split <;> rfl

/-- If the library was called, its code is noted whatever became of the random requests. -/
theorem ended_terminal {lib : Ngtcp2} {c : Call} {i : ℕ} {s : State} {refused : Error → Output}
    {work : State → Output × State} (hop : c.operation lib = some (i, refused, work))
    (hends : c.Ends lib) (hcalled : ∀ e, (work s).1 ≠ refused e) : (work s).2.terminal = true := by
  cases c <;> cases hop <;> try exact hends.elim
  case receivePacket path reply =>
    refine receivePacket_after (P := (·.terminal = true)) path reply (fun hpath => ?_)
      (noted_terminal lib _ hends)
    simp [receivePacket, hpath] at hcalled
  case writePacket output reply =>
    unfold writePacket at hcalled ⊢
    split
    · simp_all
    split
    · simp_all
    refine after_random (P := (·.terminal = true)) lib _ _ _ (noted_terminal lib _ hends)
      fun t ht => ?_
    split
    · exact ht
    · dsimp only
      split <;> exact ht
  case handleExpiry reply =>
    exact handleExpiry_after (P := (·.terminal = true)) reply (noted_terminal lib _ hends)

namespace World

variable {lib : Ngtcp2} {w w₁ w₂ w₃ : World} {c c' : Call} {o o' : Output} {i : ℕ}

/-- The connection behind a session. -/
def Behind (w : World) (session i : ℕ) : Prop :=
  ∃ x t, w.sessions.get? session = some x ∧ x.target = some t ∧ t.state = i

/-- The connection has ended, or it is gone; its place is not used again. -/
def Ended (states : Table State) (i : ℕ) : Prop :=
  i < states.size ∧ ∀ s, states.get? i = some s → s.terminal = true

theorem Ended.step {states : Table State} (h : Ended w.states i)
    (hchanges : Changes lib w c o states) : Ended states i := by
  obtain ⟨hplace, hterminal⟩ := h
  cases hchanges with
  | refused | unchanged => exact ⟨hplace, hterminal⟩
  | worked operation session target state usable =>
    refine ⟨by rwa [Table.size_set], fun s hget => ?_⟩
    rcases Table.get?_set_cases hget with ⟨rfl, rfl⟩ | ⟨_, hold⟩
    · rw [hterminal _ state] at usable
      cases usable
    · exact hterminal s hold
  | added o other create =>
    refine ⟨by rw [Table.size_push]; omega, fun s hget => ?_⟩
    rcases Table.get?_push_cases hget with ⟨hnew, _⟩ | hold
    · omega
    · exact hterminal s hold
  | deleted o other k =>
    exact ⟨by rwa [Table.size_erase], fun s hget => hterminal s (Table.get?_erase_cases hget).2⟩

variable {session session' : ℕ} {refused refused' : Error → Output}
  {work work' : State → Output × State} {trace : List (Call × Output)}

theorem step_operation (hop : c.operation lib = some (session, refused, work)) :
    w.step lib c = w.operate session refused work := by
  cases c <;> cases hop <;> rfl

/-- A refusal is an error without a call of the library. Once one of these operations has got
a code that ends the connection, every later operation on it is refused, through whatever
sessions the connection has been moved. -/
theorem ended_connection_refuses (hop : c.operation lib = some (session, refused, work))
    (hbehind : w.Behind session i) (hends : c.Ends lib) (hstep : w.step lib c = some (o, w₁))
    (hcalled : ∀ e, o ≠ refused e) (hrun : Runs.Run (system lib) w₁ trace w₂)
    (hop' : c'.operation lib = some (session', refused', work')) (hbehind' : w₂.Behind session' i)
    (hstep' : w₂.step lib c' = some (o', w₃)) : (∃ e, o' = refused' e) ∧ w₃ = w₂ := by
  obtain ⟨x, t, hx, ht, rfl⟩ := hbehind
  obtain ⟨x', t', hx', ht', hsame⟩ := hbehind'
  have hended : Ended w₁.states t.state := by
    rcases operate_cases ((step_operation hop).symm.trans hstep) with
      ⟨e, rfl, _⟩ | ⟨_, _, s, hsession, htarget, hstate, _, rfl, rfl⟩
    · exact absurd rfl (hcalled e)
    cases hx.symm.trans hsession
    cases ht.symm.trans htarget
    refine ⟨by rw [Table.size_set]; exact Table.lt_size_of_get? hstate, fun s hget => ?_⟩
    rw [Table.get?_set_self _ hstate] at hget
    cases hget
    exact ended_terminal hop hends hcalled
  have hlater : Ended w₂.states t.state :=
    hrun.invariant (P := fun w => Ended w.states t.state)
      (fun _ _ _ _ h _ hstep => h.step (step_changes hstep)) hended
  rcases operate_cases ((step_operation hop').symm.trans hstep') with
    ⟨e, rfl, rfl⟩ | ⟨_, _, s, hsession, htarget, hstate, husable, _⟩
  · exact ⟨⟨e, rfl⟩, rfl⟩
  cases hx'.symm.trans hsession
  cases ht'.symm.trans htarget
  rw [hlater.2 _ (hsame ▸ hstate)] at husable
  cases husable

/-- The library drains the connection; then its session is moved and asked again. -/
theorem ended_connection_refuses_moved : ∃ (w₁ w₂ w₃ : World) (o o' : Output),
      sampleWorld.step ngtcp2 (.handleExpiry 0 { result := -224 }) = some (o, w₁) ∧
      Runs.Run (system ngtcp2) w₁ [(.moveConstruct 0, .moved)] w₂ ∧
      w₂.step ngtcp2 (.packetTransmitted 1) = some (o', w₃) ∧ w₃ = w₂ := by
  have hends : Call.Ends ngtcp2 (.handleExpiry 0 { result := -224 }) := rfl
  exact ⟨_, _, _, _, _, rfl, .single ⟨_, rfl⟩ rfl, rfl, (ended_connection_refuses rfl
    ⟨_, _, rfl, rfl, rfl⟩ hends (w := sampleWorld) rfl (fun e he => by cases he)
    (.single (i := Call.moveConstruct 0) ⟨_, rfl⟩ rfl) rfl ⟨_, _, rfl, rfl, rfl⟩
    (rfl : step ngtcp2 _ (.packetTransmitted 1) = _)).2⟩

end World

end Laghu.QuicSessions
