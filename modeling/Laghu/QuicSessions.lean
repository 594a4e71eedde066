import Laghu.DependencyErrors
import Laghu.ObjectTable
import Laghu.Runs
import Laghu.Views

/-!
QUIC sessions over connections of a native library. What the library answers is an
argument of each call that reaches it, and so is what its callbacks met with: while the
library is at work it asks for random bytes, and a request that fails is noted in the
session's state. What is only passed on to the library is left out of the calls.
-/

namespace Laghu.QuicSessions

open Contract DependencyErrors Views
open ObjectTable (Table)

/-- The constants of the native library. -/
structure Ngtcp2 where
  noMemory : Int
  streamIdBlocked : Int
  streamDataBlocked : Int
  invalidArgument : Int
  crypto : Int
  retry : Int
  dropConnection : Int
  draining : Int
  closing : Int
  idleClose : Int
  callbackFailure : Int
  isFatal : Int → Bool
  maximumUdpPayloadSize : Size
  maximumTransmitPayloadSize : Size

def statusFor (lib : Ngtcp2) (code : Int) : DependencyStatus :=
  if code = lib.noMemory ∨ code = lib.streamIdBlocked ∨ code = lib.streamDataBlocked then
    .exhaustion
  else if code = lib.invalidArgument then .invalidInput
  else if code = lib.crypto then .crypto
  else .corruptData

def terminalError (lib : Ngtcp2) (code : Int) : Bool :=
  code = lib.retry || code = lib.dropConnection || code = lib.draining || code = lib.closing ||
    lib.isFatal code

def nativeError (lib : Ngtcp2) (operation : DependencyOperation) (code : Int) : Error :=
  normalizeDependencyError .ngtcp2 operation (statusFor lib code) code

/-- `unknown` is a value of the underlying integer that is no enumerator. -/
inductive QuicRole
  | client | server
  | unknown (value : BitVec 8)
  deriving DecidableEq

inductive QuicAddressFamily
  | ipv4 | ipv6
  | unknown (value : BitVec 8)
  deriving DecidableEq

structure QuicEndpoint where
  family : QuicAddressFamily := .ipv4
  address : Vector (BitVec 8) 16 := .replicate 16 0#8
  port : BitVec 16 := 0#16
  deriving DecidableEq

structure QuicPath where
  localEndpoint : QuicEndpoint := {}
  remote : QuicEndpoint := {}
  deriving DecidableEq

def validEndpoint (endpoint : QuicEndpoint) : Bool :=
  (endpoint.family = .ipv4 || endpoint.family = .ipv6) && endpoint.port ≠ 0#16

/-- Whether the native form of a path could be built. -/
def storePath (path : QuicPath) : Bool :=
  validEndpoint path.localEndpoint && validEndpoint path.remote

/-- A socket address of the native library; its port is in network byte order. -/
inductive NativeAddress
  | null
  | inet (length : ℕ) (port : BitVec 16) (address : Vector (BitVec 8) 4)
  | inet6 (length : ℕ) (port : BitVec 16) (address : Vector (BitVec 8) 16)
  | other (family : BitVec 16) (length : ℕ)
  deriving DecidableEq

/-- `sizeof(sockaddr_in)` and `sizeof(sockaddr_in6)`. -/
def inetSize : ℕ := 16

def inet6Size : ℕ := 28

def networkToHost (port : BitVec 16) : BitVec 16 := port.rotateLeft 8

def endpointFrom : NativeAddress → QuicEndpoint
  | .inet6 length port address =>
    if length ≥ inet6Size then ⟨.ipv6, address, networkToHost port⟩ else {}
  | .inet length port address =>
    if length ≥ inetSize then ⟨.ipv4, address ++ Vector.replicate 12 0#8, networkToHost port⟩
    else {}
  | _ => {}

structure NativePath where
  localEndpoint : NativeAddress := .null
  remote : NativeAddress := .null
  deriving DecidableEq

def pathFrom (path : NativePath) : QuicPath :=
  ⟨endpointFrom path.localEndpoint, endpointFrom path.remote⟩

structure GenerationId where
  value : BitVec 64
  nonzero : value ≠ 0#64

structure QuicConnectionId where
  value : List (BitVec 8)
  worker : WorkerId
  generation : GenerationId
  nonempty : value ≠ []
  length_le : value.length ≤ 20

/-- The part of the state of a session that its operations use. -/
structure State where
  maximumPacketBytes : Size
  randomFailed : Bool := false
  terminal : Bool := false
  packetPendingTransmit : Bool := false
  deriving DecidableEq

/-- The callbacks that ask for random bytes, with the answers they got. -/
inductive Callback
  | randomFill (filled : Bool)
  | newConnectionId (identifier token : Bool)
  | pathChallenge (filled : Bool)
  deriving DecidableEq

/-- Every request was granted. -/
def Callback.Granted : Callback → Prop
  | .randomFill filled => filled = true
  | .newConnectionId identifier token => identifier = true ∧ token = true
  | .pathChallenge filled => filled = true

structure QuicPacketWrite where
  packetBytes : Size
  streamBytes : Size
  path : QuicPath
  deriving DecidableEq

/-- A native call that only returns a code. -/
structure Reply where
  callbacks : List Callback := []
  result : Int
  deriving DecidableEq

/-- `ngtcp2_conn_writev_stream`: the size of the packet or a negative code, the number of
stream bytes taken or a negative number, and the path of the packet. -/
structure WriteReply where
  callbacks : List Callback := []
  result : BitVec 64
  consumed : BitVec 64
  path : NativePath := {}
  deriving DecidableEq

/-- `ngtcp2_conn_open_bidi_stream` and `ngtcp2_conn_open_uni_stream`. -/
structure OpenReply where
  callbacks : List Callback := []
  result : Int
  stream : BitVec 64
  deriving DecidableEq

/-- A result comes with the native call, if there was one. -/
inductive Output
  | created (result : Result Unit)
  | done (result : Result Unit) (native : Option Reply)
  | wrote (result : Result QuicPacketWrite) (native : Option WriteReply)
  | opened (result : Result (BitVec 64)) (native : Option OpenReply)
  | transmitted (result : Result Unit)
  | expiry (nanoseconds : BitVec 64)
  | moved

namespace State

def callback (s : State) : Callback → State
  | .randomFill filled => if filled then s else { s with randomFailed := true }
  | .newConnectionId identifier token =>
    if !identifier || !token then { s with randomFailed := true } else s
  | .pathChallenge filled => if filled then s else { s with randomFailed := true }

def callbacks (s : State) (cs : List Callback) : State := cs.foldl callback s

def requireRandom (lib : Ngtcp2) (s : State) : Result Unit × State :=
  if !s.randomFailed then (.ok (), s)
  else (.error (normalizeDependencyError .ngtcp2 .quicSession .crypto lib.callbackFailure),
    { s with randomFailed := false })

/-- A code that ends the connection is noted. -/
def note (s : State) (ended : Bool) : State := if ended then { s with terminal := true } else s

def receivePacket (lib : Ngtcp2) (path : QuicPath) (reply : Reply) (s : State) : Output × State :=
  if !storePath path then
    (.done (.error (coreError .invalidInput "QUIC packet path is invalid")) none, s)
  else
    let s := (s.callbacks reply.callbacks).note
      (reply.result < 0 && terminalError lib reply.result)
    match s.requireRandom lib with
    | (.error e, s) => (.done (.error e) (some reply), s)
    | (.ok (), s) =>
      if reply.result ≠ 0 then
        (.done (.error (nativeError lib .quicReceive reply.result)) (some reply), s)
      else (.done (.ok ()) (some reply), s)

/-- `static_cast<int>` of a native size. -/
def toInt32 (n : BitVec 64) : Int := (n.setWidth 32).toInt

def writePacket (lib : Ngtcp2) (output : MutableByteView) (reply : WriteReply) (s : State) :
    Output × State :=
  if s.packetPendingTransmit then
    (.wrote (.error (coreError .invalidState "QUIC packet transmission is still pending")) none, s)
  else if output.size < s.maximumPacketBytes then
    (.wrote (.error (coreError .invalidRange
      "QUIC output is smaller than the configured packet buffer")) none, s)
  else
    let s := (s.callbacks reply.callbacks).note
      (reply.result.toInt < 0 && terminalError lib (toInt32 reply.result))
    match s.requireRandom lib with
    | (.error e, s) => (.wrote (.error e) (some reply), s)
    | (.ok (), s) =>
      if reply.result.toInt < 0 then
        (.wrote (.error (nativeError lib .quicSend (toInt32 reply.result))) (some reply), s)
      else
        (.wrote (.ok {
            packetBytes := reply.result
            streamBytes := if reply.consumed.toInt < 0 then 0#64 else reply.consumed
            path := if reply.result.toInt > 0 then pathFrom reply.path else {} }) (some reply),
          if reply.result.toInt > 0 then { s with packetPendingTransmit := true } else s)

def packetTransmitted (s : State) : Output × State :=
  if !s.packetPendingTransmit then
    (.transmitted (.error (coreError .invalidState
      "QUIC has no generated packet awaiting transmission")), s)
  else (.transmitted (.ok ()), { s with packetPendingTransmit := false })

def openStream (lib : Ngtcp2) (reply : OpenReply) (s : State) : Output × State :=
  match (s.callbacks reply.callbacks).requireRandom lib with
  | (.error e, s) => (.opened (.error e) (some reply), s)
  | (.ok (), s) =>
    if reply.result ≠ 0 then
      (.opened (.error (nativeError lib .quicStream reply.result)) (some reply), s)
    else (.opened (.ok reply.stream) (some reply), s)

def openBidirectionalStream (lib : Ngtcp2) (reply : OpenReply) (s : State) : Output × State :=
  openStream lib reply s

def openUnidirectionalStream (lib : Ngtcp2) (reply : OpenReply) (s : State) : Output × State :=
  openStream lib reply s

/-- Neither `reset_stream` nor `stop_sending` looks at the random requests. -/
def shutdownStream (lib : Ngtcp2) (reply : Reply) (s : State) : Output × State :=
  let s := s.callbacks reply.callbacks
  if reply.result ≠ 0 then
    (.done (.error (nativeError lib .quicStream reply.result)) (some reply), s)
  else (.done (.ok ()) (some reply), s)

def resetStream (lib : Ngtcp2) (reply : Reply) (s : State) : Output × State :=
  shutdownStream lib reply s

def stopSending (lib : Ngtcp2) (reply : Reply) (s : State) : Output × State :=
  shutdownStream lib reply s

def handleExpiry (lib : Ngtcp2) (reply : Reply) (s : State) : Output × State :=
  let s := (s.callbacks reply.callbacks).note
    (reply.result = lib.idleClose || (reply.result < 0 && terminalError lib reply.result))
  match s.requireRandom lib with
  | (.error e, s) => (.done (.error e) (some reply), s)
  | (.ok (), s) =>
    if reply.result ≠ 0 then
      (.done (.error (nativeError lib .quicExpiry reply.result)) (some reply), s)
    else (.done (.ok ()) (some reply), s)

end State

/-- Which callbacks of a new session are there. -/
structure QuicCallbacks where
  randomFill : Bool
  start : Bool
  receive : Bool
  retry : Bool
  update : Bool
  connectionIds : Bool

/-- What `create` is given. `poolWorker` is the worker of the memory pool, `pin` the
answer of its arena, and `storage` says whether the pool had room for the state. -/
structure Creation where
  role : QuicRole
  destination : QuicConnectionId
  source : QuicConnectionId
  initialPath : QuicPath
  maximumPacketBytes : Size
  callbacks : QuicCallbacks
  poolWorker : WorkerId
  pin : Result Unit
  storage : Bool
  native : Reply

def Creation.validInput (lib : Ngtcp2) (c : Creation) : Bool :=
  (c.role = .client || c.role = .server) && c.destination.worker.value = c.source.worker.value &&
    c.destination.generation.value = c.source.generation.value &&
    lib.maximumUdpPayloadSize ≤ c.maximumPacketBytes &&
    c.maximumPacketBytes ≤ lib.maximumTransmitPayloadSize &&
    c.callbacks.randomFill && c.callbacks.start && c.callbacks.receive && c.callbacks.retry &&
    c.callbacks.update && c.callbacks.connectionIds && validEndpoint c.initialPath.localEndpoint &&
    validEndpoint c.initialPath.remote

def Creation.create (lib : Ngtcp2) (c : Creation) : Result State := do
  require (c.validInput lib = true) (coreError .invalidInput
    "QUIC role, CID ownership, limits, or crypto callbacks are invalid")
  require (c.poolWorker.value = c.source.worker.value) (coreError .invalidState
    "QUIC memory pool belongs to a different worker")
  c.pin
  require (c.storage = true) (coreError .exhaustion "QUIC session storage is exhausted")
  require (storePath c.initialPath = true) (coreError .invalidInput "QUIC initial path is invalid")
  let state : State := { maximumPacketBytes := c.maximumPacketBytes }
  let state := state.callbacks c.native.callbacks
  require (c.native.result = 0) (nativeError lib .quicSession c.native.result)
  match state.requireRandom lib with
  | (.error e, _) => .error e
  | (.ok (), state) => .ok state

/-- `connection_`, `state_`, `arena_` and `generation_`, set and cleared together. The
connection and the state are one object here. -/
structure Target where
  state : ℕ
  arena : ℕ
  generation : BitVec 64
  deriving DecidableEq

structure QuicSession where
  target : Option Target := none
  deriving DecidableEq

/-- All sessions of a program, and the generations of its arenas. -/
structure World where
  states : Table State := .empty
  sessions : Table QuicSession := .empty
  generations : ℕ → BitVec 64

/-- `reset` is a reset of an arena, and `expiryNs` has the answer of the library. -/
inductive Call
  | create (creation : Creation) (arena : ℕ)
  | receivePacket (session : ℕ) (path : QuicPath) (reply : Reply)
  | writePacket (session : ℕ) (output : MutableByteView) (reply : WriteReply)
  | packetTransmitted (session : ℕ)
  | openBidirectionalStream (session : ℕ) (reply : OpenReply)
  | openUnidirectionalStream (session : ℕ) (reply : OpenReply)
  | resetStream (session : ℕ) (reply : Reply)
  | stopSending (session : ℕ) (reply : Reply)
  | expiryNs (session : ℕ) (reply : BitVec 64)
  | handleExpiry (session : ℕ) (reply : Reply)
  | moveConstruct (source : ℕ)
  | moveAssign (target source : ℕ)
  | destroy (session : ℕ)
  | reset (arena : ℕ)

namespace World

def inactive : Error :=
  coreError .invalidState "QUIC session is inactive or its arena was reset"

/-- `require_valid`, with the state that the operation then works on. -/
def requireValid (w : World) (session : ℕ) : Option (Result (ℕ × State)) := do
  let x ← w.sessions.get? session
  match x.target with
  | none => return .error inactive
  | some t =>
    if w.generations t.arena ≠ t.generation then return .error inactive
    else
      let s ← w.states.get? t.state
      if s.terminal then return .error inactive else return .ok (t.state, s)

/-- What all operations do around their work on the state. -/
def operate (w : World) (session : ℕ) (refused : Error → Output) (work : State → Output × State) :
    Option (Output × World) := do
  match ← w.requireValid session with
  | .error e => return (refused e, w)
  | .ok (i, s) =>
    let (o, s') := work s
    return (o, { w with states := w.states.set i s' })

/-- `release` without clearing the session. -/
def release (w : World) (x : QuicSession) : Option World :=
  match x.target with
  | none => some w
  | some t =>
    if w.generations t.arena = t.generation then do
      let _ ← w.states.get? t.state
      return { w with states := w.states.erase t.state }
    else some w

def step (lib : Ngtcp2) (w : World) : Call → Option (Output × World)
  | .create creation arena =>
    match creation.create lib with
    | .error e => some (.created (.error e), w)
    | .ok state => some (.created (.ok ()), { w with
        states := w.states.push state
        sessions := w.sessions.push
          { target := some ⟨w.states.size, arena, w.generations arena⟩ } })
  | .receivePacket session path reply =>
    w.operate session (fun e => .done (.error e) none) (State.receivePacket lib path reply)
  | .writePacket session output reply =>
    w.operate session (fun e => .wrote (.error e) none) (State.writePacket lib output reply)
  | .packetTransmitted session =>
    w.operate session (fun e => .transmitted (.error e)) State.packetTransmitted
  | .openBidirectionalStream session reply =>
    w.operate session (fun e => .opened (.error e) none) (State.openBidirectionalStream lib reply)
  | .openUnidirectionalStream session reply =>
    w.operate session (fun e => .opened (.error e) none) (State.openUnidirectionalStream lib reply)
  | .resetStream session reply =>
    w.operate session (fun e => .done (.error e) none) (State.resetStream lib reply)
  | .stopSending session reply =>
    w.operate session (fun e => .done (.error e) none) (State.stopSending lib reply)
  | .expiryNs session reply => do
    let x ← w.sessions.get? session
    match x.target with
    | none => return (.expiry 0#64, w)
    | some t =>
      return (.expiry (if w.generations t.arena ≠ t.generation then 0#64 else reply), w)
  | .handleExpiry session reply =>
    w.operate session (fun e => .done (.error e) none) (State.handleExpiry lib reply)
  | .moveConstruct source => do
    let x ← w.sessions.get? source
    return (.moved, { w with sessions := (w.sessions.set source {}).push x })
  | .moveAssign target source =>
    if target = source then some (.moved, w)
    else do
      let old ← w.sessions.get? target
      let x ← w.sessions.get? source
      let w ← w.release old
      return (.moved, { w with sessions := (w.sessions.set target x).set source {} })
  | .destroy session => do
    let x ← w.sessions.get? session
    let w ← w.release x
    return (.moved, { w with sessions := w.sessions.erase session })
  | .reset arena =>
    if w.generations arena = sizeMax then some (.moved, w)
    else some (.moved, { w with
      generations := fun other =>
        if other = arena then w.generations arena + 1#64 else w.generations other })

/-- Only sessions that exist are used. -/
def Legal (w : World) : Call → Prop
  | .create _ _ => True
  | .receivePacket session _ _ => ∃ x, w.sessions.get? session = some x
  | .writePacket session _ _ => ∃ x, w.sessions.get? session = some x
  | .packetTransmitted session => ∃ x, w.sessions.get? session = some x
  | .openBidirectionalStream session _ => ∃ x, w.sessions.get? session = some x
  | .openUnidirectionalStream session _ => ∃ x, w.sessions.get? session = some x
  | .resetStream session _ => ∃ x, w.sessions.get? session = some x
  | .stopSending session _ => ∃ x, w.sessions.get? session = some x
  | .expiryNs session _ => ∃ x, w.sessions.get? session = some x
  | .handleExpiry session _ => ∃ x, w.sessions.get? session = some x
  | .moveConstruct source => ∃ x, w.sessions.get? source = some x
  | .moveAssign target source =>
    (∃ x, w.sessions.get? target = some x) ∧ ∃ x, w.sessions.get? source = some x
  | .destroy session => ∃ x, w.sessions.get? session = some x
  | .reset _ => True

def system (lib : Ngtcp2) : Runs.System World Call Output where
  legal := Legal
  step := step lib

end World

end Laghu.QuicSessions
