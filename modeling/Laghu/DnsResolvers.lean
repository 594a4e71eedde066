import Laghu.DependencyErrors
import Laghu.ObjectTable
import Laghu.Runs

/-!
The DNS resolver over c-ares. Every query has a slot and a native channel of its
own. What the library does inside a native call is a list of callbacks that comes
with the call. The completion sink is the last thing a call does before it returns,
and the caller may call the resolver again from inside it.
-/

namespace Laghu.DnsResolvers

open Contract DependencyErrors ObjectTable

/-- Zero is no token. -/
abbrev DnsQueryToken := BitVec 64

inductive DnsAddressFamily
  | ipv4 | ipv6
  deriving DecidableEq

/-- `unknown` is a value that is no enumerator. -/
inductive DnsQueryFamily
  | ipv4 | ipv6 | any | unknown (value : BitVec 8)
  deriving DecidableEq

structure DnsAddress where
  family : DnsAddressFamily
  bytes : List (BitVec 8)
  ttlSeconds : BitVec 32
  deriving DecidableEq

structure DnsResolverLimits where
  maximumOutstandingQueries : ℕ
  maximumResultAddresses : ℕ
  timeoutMilliseconds : ℕ
  attempts : ℕ
  deriving DecidableEq

structure DnsQueryResult where
  token : DnsQueryToken
  addresses : List DnsAddress := []
  error : Option Error := none
  deriving DecidableEq

def maximumQueryCapacity : ℕ := 64

def maximumAddressCapacity : ℕ := 32

def maximumSocketCapacity : ℕ := maximumQueryCapacity * 16

def maximumNameserverCapacity : ℕ := 8

/-- The status codes of c-ares that the adapter tells apart. -/
inductive AresStatus
  | success | enodata | eformerr | eservfail | enotfound | enotimp | ebadquery | ebadname
  | ebadfamily | ebadresp | econnrefused | etimeout | enomem | edestruction | enotinitialized
  | ecancelled | eservice
  | other (code : Int)
  deriving DecidableEq

def AresStatus.code : AresStatus → Int
  | .success => 0
  | .enodata => 1
  | .eformerr => 2
  | .eservfail => 3
  | .enotfound => 4
  | .enotimp => 5
  | .ebadquery => 7
  | .ebadname => 8
  | .ebadfamily => 9
  | .ebadresp => 10
  | .econnrefused => 11
  | .etimeout => 12
  | .enomem => 15
  | .edestruction => 16
  | .enotinitialized => 21
  | .ecancelled => 24
  | .eservice => 25
  | .other code => code

def statusFor : AresStatus → DependencyStatus
  | .enomem => .exhaustion
  | .ebadname | .ebadquery | .ebadfamily | .eservice => .invalidInput
  | .enotimp | .enotinitialized => .unavailable
  | .etimeout | .econnrefused | .eservfail => .io
  | .eformerr | .ebadresp => .corruptData
  | .enodata | .enotfound => .unavailable
  | .ecancelled | .edestruction => .unknown
  | _ => .unknown

def nativeError (operation : DependencyOperation) (status : AresStatus) : Error :=
  normalizeDependencyError .cAres operation (statusFor status) status.code

inductive NativeFamily
  | inet | inet6 | other
  deriving DecidableEq

/-- An `ares_addrinfo_node`; `bytes` are those of `sin_addr` or `sin6_addr`. -/
structure AddrInfoNode where
  hasAddress : Bool
  family : NativeFamily
  length : ℕ
  bytes : List (BitVec 8)
  ttl : Int

/-- The sizes are those of `sockaddr_in` and `sockaddr_in6`. -/
def copyAddress (node : AddrInfoNode) : Option DnsAddress :=
  if !node.hasAddress || node.ttl < 0 then none
  else if node.family = .inet ∧ 16 ≤ node.length then
    some ⟨.ipv4, node.bytes.take 4 ++ List.replicate 12 0#8, BitVec.ofInt 32 node.ttl⟩
  else if node.family = .inet6 ∧ 28 ≤ node.length then
    some ⟨.ipv6, node.bytes.take 16, BitVec.ofInt 32 node.ttl⟩
  else none

/-- A native channel: whether a query was started on it whose callback has not been
called yet. -/
structure Channel where
  pending : Bool
  deriving DecidableEq

structure QuerySlot where
  channel : Option Channel := none
  token : DnsQueryToken := 0#64
  completedAddresses : List DnsAddress := []
  completedError : Error := coreError .invalidState ""
  active : Bool := false
  nativeDone : Bool := false
  canceling : Bool := false
  socketCapacityFailed : Bool := false
  completedWithError : Bool := false
  deriving DecidableEq

structure SocketSlot where
  descriptor : Int
  query : ℕ
  readable : Bool
  writable : Bool
  deriving DecidableEq

/-- `sockets` are the entries below `socket_count`. `completed` records the queries whose
native callback was called, in order; nothing reads it. -/
structure State where
  limits : DnsResolverLimits
  hasExplicitNameservers : Bool := false
  queries : List QuerySlot := List.replicate maximumQueryCapacity {}
  sockets : List SocketSlot := []
  nextToken : BitVec 64 := 1#64
  outstanding : ℕ := 0
  shuttingDown : Bool := false
  completed : List DnsQueryToken := []

namespace State

def setQuery (s : State) (i : ℕ) (q : QuerySlot) : State := { s with queries := s.queries.set i q }

end State

def finishQuery (q : QuerySlot) : QuerySlot :=
  if !q.active then q
  else
    { q with
      active := false
      nativeDone := false
      canceling := false
      socketCapacityFailed := false
      completedAddresses := []
      completedWithError := false
      channel := none }

/-- The entry for the descriptor moves to the place of the one that is removed. -/
def removeSocket (sockets : List SocketSlot) (index : ℕ) : List SocketSlot :=
  match sockets.getLast? with
  | none => sockets
  | some last => (sockets.set index last).dropLast

def socketState (s : State) (i : ℕ) (descriptor : Int) (readable writable : Bool) : State :=
  match s.sockets.findIdx? (·.descriptor = descriptor) with
  | some index =>
    if !readable && !writable then { s with sockets := removeSocket s.sockets index }
    else
      { s with
        sockets := s.sockets.modify index fun slot =>
          { slot with readable := readable, writable := writable } }
  | none =>
    if !readable && !writable then s
    else if s.sockets.length = maximumSocketCapacity then
      { s with queries := s.queries.modify i fun q => { q with socketCapacityFailed := true } }
    else { s with sockets := s.sockets ++ [⟨descriptor, i, readable, writable⟩] }

/-- The loop over the native result: the addresses copied, or no room for one. -/
def copyAddresses (maximum : ℕ) : List AddrInfoNode → List DnsAddress → Option (List DnsAddress)
  | [], copied => some copied
  | node :: rest, copied =>
    match copyAddress node with
    | none => copyAddresses maximum rest copied
    | some address =>
      if copied.length = maximum then none
      else copyAddresses maximum rest (copied ++ [address])

/-- What `address_complete` stores in the slot of a query that was not canceled. -/
def recordResult (maximum : ℕ) (status : AresStatus) (nodes : List AddrInfoNode) (q : QuerySlot) :
    QuerySlot :=
  let failed (error : Error) : QuerySlot :=
    { q with completedAddresses := [], completedError := error, completedWithError := true }
  if status ≠ .success then failed (nativeError .dnsQuery status)
  else
    match copyAddresses maximum nodes [] with
    | none => failed (coreError .exhaustion "DNS result exceeds caller address capacity")
    | some [] => failed (nativeError .dnsQuery .enodata)
    | some addresses => { q with completedAddresses := addresses, completedWithError := false }

/-- `nodes` is empty for a null result. A query that `release` ends is not recorded. -/
def addressComplete (s : State) (i : ℕ) (status : AresStatus) (nodes : List AddrInfoNode) : State :=
  match s.queries[i]? with
  | none => s
  | some q =>
    if s.shuttingDown then s.setQuery i { q with nativeDone := true }
    else
      let recorded :=
        if q.canceling ∧ status = .ecancelled then q
        else recordResult s.limits.maximumResultAddresses status nodes q
      { s.setQuery i { recorded with nativeDone := true } with
        outstanding := s.outstanding - 1
        completed := s.completed ++ [q.token] }

/-- What the library calls during one of its functions. -/
inductive Callback
  | socketState (descriptor : Int) (readable writable : Bool)
  | addressComplete (status : AresStatus) (nodes : List AddrInfoNode)

def Callback.completes : Callback → Bool
  | .socketState _ _ _ => false
  | .addressComplete _ _ => true

def Callback.run (i : ℕ) (s : State) : Callback → State
  | .socketState descriptor readable writable => DnsResolvers.socketState s i descriptor readable
      writable
  | .addressComplete status nodes => DnsResolvers.addressComplete s i status nodes

/-- The callbacks that c-ares may call during a function on a channel: the completion of
a pending query at most once, and exactly once where the function completes it. -/
def Admissible (pending must : Bool) (callbacks : List Callback) : Prop :=
  callbacks.countP Callback.completes ≤ pending.toNat ∧
    (must = true → callbacks.countP Callback.completes = pending.toNat)

instance (pending must : Bool) (callbacks : List Callback) :
    Decidable (Admissible pending must callbacks) :=
  inferInstanceAs (Decidable (_ ∧ _))

/-- A function of c-ares on the channel of slot `i`. `none` is a misuse of the channel, or
callbacks the library never makes. -/
def ares (s : State) (i : ℕ) (must : Bool) (callbacks : List Callback) : Option State := do
  let q ← s.queries[i]?
  let channel ← q.channel
  if Admissible channel.pending must callbacks then
    let finished := decide (callbacks.countP Callback.completes = 1)
    let after := callbacks.foldl (Callback.run i) s
    return { after with
      queries := after.queries.modify i fun q =>
        { q with channel := some ⟨channel.pending && !finished⟩ } }
  else none

/-- What c-ares does during one call of the resolver. -/
structure Native where
  initialized : AresStatus := .success
  configured : AresStatus := .success
  discard : List Callback := []
  getaddrinfo : List Callback := []
  processFd : ℕ → List Callback := fun _ => []
  cancel : List Callback := []
  destroy : List Callback := []
  release : ℕ → List Callback := fun _ => []

/-- What a call returns. The sink is called before it returns, if at all. -/
structure Outcome (α : Type) where
  value : Result α
  state : State
  sink : Option DnsQueryResult := none

def Outcome.fail {α : Type} (s : State) (code : ErrorCode) (diagnostic : String) : Outcome α :=
  ⟨.error (coreError code diagnostic), s, none⟩

/-- Sets the channel of the slot. -/
def initializeChannel (s : State) (i : ℕ) (n : Native) : Option (Result Unit × State) := do
  let q ← s.queries[i]?
  if n.initialized ≠ .success then return (.error (nativeError .dnsSession n.initialized), s)
  else
    let s := s.setQuery i { q with channel := some ⟨false⟩ }
    if s.hasExplicitNameservers ∧ n.configured ≠ .success then
      let s ← ares s i true n.discard
      return (.error (nativeError .dnsSession n.configured),
        { s with queries := s.queries.modify i fun q => { q with channel := none } })
    else return (.ok (), s)

def retireChannel (s : State) (i : ℕ) (n : Native) : Option State := do
  let q ← s.queries[i]?
  let s ← if q.channel.isSome then ares s i true n.destroy else some s
  return { s with queries := s.queries.modify i finishQuery }

def dispatchCompletion (s : State) (i : ℕ) (n : Native) : Option (DnsQueryResult × State) := do
  let q ← s.queries[i]?
  let s ← retireChannel s i n
  return (⟨q.token, q.completedAddresses,
    if q.completedWithError then some q.completedError else none⟩, s)

def failSocketCapacity (s : State) (i : ℕ) (n : Native) : Option (DnsQueryResult × State) := do
  let q ← s.queries[i]?
  let s ← ares (s.setQuery i { q with canceling := true }) i true n.cancel
  let s ← retireChannel s i n
  return (⟨q.token, [], some (coreError .exhaustion "DNS socket interest capacity exhausted")⟩, s)

/-- What follows every native call that can make progress: a query that finished, or
ran out of sockets, is retired and reported. -/
def settle {α : Type} (s : State) (i : ℕ) (n : Native) (value : Result α) :
    Option (Option (Outcome α)) := do
  let q ← s.queries[i]?
  if q.nativeDone then
    let (result, s) ← dispatchCompletion s i n
    return some ⟨value, s, some result⟩
  else if q.socketCapacityFailed then
    let (result, s) ← failSocketCapacity s i n
    return some ⟨value, s, some result⟩
  else return none

/-- The slot that `resolve` takes. -/
def freeSlot (s : State) : Option ℕ := s.queries.findIdx? (!·.active)

def checkHostname (hostname : List (BitVec 8)) (family : DnsQueryFamily) : Result Unit := do
  require (0 < hostname.length ∧ hostname.length ≤ 253)
    (coreError .invalidRange "DNS hostname must contain 1 to 253 bytes")
  require (family = .ipv4 ∨ family = .ipv6 ∨ family = .any)
    (coreError .invalidInput "DNS query family is invalid")
  require (0#8 ∉ hostname) (coreError .invalidInput "text contains an embedded NUL")

def startedSlot (token : DnsQueryToken) (q : QuerySlot) : QuerySlot :=
  { q with
    token := token
    active := true
    nativeDone := false
    canceling := false
    socketCapacityFailed := false
    completedAddresses := []
    completedWithError := false }

/-- The part of `resolve` that follows once a slot and a token are found. -/
def startQuery (s : State) (i : ℕ) (n : Native) : Option (Outcome DnsQueryToken) := do
  let token := s.nextToken
  let s := { s with
    nextToken := s.nextToken + 1#64
    queries := s.queries.modify i (startedSlot token) }
  match ← initializeChannel s i n with
  | (.error e, s) =>
    return ⟨.error e, { s with queries := s.queries.modify i finishQuery }, none⟩
  | (.ok (), s) =>
    let s := { s with
      outstanding := s.outstanding + 1
      queries := s.queries.modify i fun q => { q with channel := some ⟨true⟩ } }
    let s ← ares s i false n.getaddrinfo
    match ← settle s i n (.ok token) with
    | some outcome => return outcome
    | none => return ⟨.ok token, s, none⟩

def resolve (s : State) (hostname : List (BitVec 8)) (family : DnsQueryFamily) (n : Native) :
    Option (Outcome DnsQueryToken) :=
  match checkHostname hostname family with
  | .error e => some ⟨.error e, s, none⟩
  | .ok () =>
    if s.outstanding = s.limits.maximumOutstandingQueries then
      some (.fail s .exhaustion "DNS outstanding query limit reached")
    else
      match freeSlot s with
      | none => some (.fail s .exhaustion "DNS query token capacity exhausted")
      | some i =>
        if s.nextToken = 0#64 then
          some (.fail s .exhaustion "DNS query token capacity exhausted")
        else startQuery s i n

def findQuery (s : State) (token : DnsQueryToken) : Option ℕ :=
  if token = 0#64 then none
  else s.queries.findIdx? fun q => q.active && !q.nativeDone && q.token = token

def cancel (s : State) (token : DnsQueryToken) (n : Native) : Option (Outcome Unit) :=
  match findQuery s token with
  | none => some (.fail s .invalidState "DNS query token is inactive")
  | some i => do
    let q ← s.queries[i]?
    if q.canceling then return .fail s .invalidState "DNS query token is inactive"
    else
      let s ← ares (s.setQuery i { q with canceling := true }) i true n.cancel
      let q ← s.queries[i]?
      if !q.nativeDone then
        return .fail (s.setQuery i { q with canceling := false }) .invalidState
          "DNS dependency did not complete cancellation"
      else
        let s ← retireChannel s i n
        return ⟨.ok (), s,
          some ⟨token, [], some (coreError .cancellation "DNS query was canceled")⟩⟩

structure DnsSocketEvent where
  descriptor : Int
  readable : Bool
  writable : Bool
  deriving DecidableEq

/-- The first loop of `process_events`: the query of each event and its token. -/
def eventQueries (s : State) : List DnsSocketEvent → Result (List (ℕ × DnsQueryToken))
  | [] => .ok []
  | event :: rest => do
    require (0 ≤ event.descriptor ∧ (event.readable ∨ event.writable))
      (coreError .invalidInput "DNS socket event is invalid")
    let unregistered := coreError .invalidState "DNS socket event is not registered"
    match s.sockets.find? (·.descriptor = event.descriptor) with
    | none => .error unregistered
    | some slot =>
      match s.queries[slot.query]? with
      | none => .error unregistered
      | some q =>
        require (q.active ∧ q.channel.isSome) unregistered
        return (slot.query, q.token) :: (← eventQueries s rest)

/-- The loop over `ares_process_fd` in `process_events` and `process_timeout`, which
returns after the first query that is retired. -/
def processQueries (n : Native) : State → List (ℕ × DnsQueryToken) → ℕ → Option (Outcome Unit)
  | s, [], _ => some ⟨.ok (), s, none⟩
  | s, (i, token) :: rest, k => do
    let q ← s.queries[i]?
    if !q.active || q.channel.isNone || q.token ≠ token then processQueries n s rest (k + 1)
    else
      let s ← ares s i false (n.processFd k)
      match ← settle s i n (.ok ()) with
      | some outcome => return outcome
      | none => processQueries n s rest (k + 1)

def processEvents (s : State) (events : List DnsSocketEvent) (n : Native) : Option (Outcome Unit) :=
  if maximumSocketCapacity < events.length then
    some (.fail s .invalidRange "DNS socket event input exceeds capacity")
  else
    match eventQueries s events with
    | .error e => some ⟨.error e, s, none⟩
    | .ok queries => processQueries n s queries 0

/-- The slots with a query, in order. -/
def pendingQueries (s : State) : List (ℕ × DnsQueryToken) :=
  s.queries.zipIdx.filterMap fun (q, i) =>
    if q.active && q.channel.isSome then some (i, q.token) else none

def processTimeout (s : State) (n : Native) : Option (Outcome Unit) :=
  processQueries n s (pendingQueries s) 0

/-- The loop over the channels in `release`, before the state is deleted. -/
def destroyChannels (n : Native) : State → ℕ → ℕ → Option State
  | s, 0, _ => some s
  | s, remaining + 1, i => do
    let q ← s.queries[i]?
    let s ← if q.channel.isSome then ares s i true (n.release i) else some s
    destroyChannels n s remaining (i + 1)

def release (s : State) (n : Native) : Option State :=
  destroyChannels n { s with shuttingDown := true } s.queries.length 0

/-- The configuration of a resolver. `lifecycleReady` says that the lifecycle is
initialized in this process, `allocated` that there was memory for the state, and
`appended` whether the nameserver list fits its text. -/
structure DnsResolverConfig where
  lifecycleReady : Bool := true
  limits : DnsResolverLimits
  nameserverCount : ℕ := 0
  hasSink : Bool := true
  allocated : Bool := true
  appended : Result Unit := .ok ()

def create (config : DnsResolverConfig) : Result State := do
  require (config.lifecycleReady = true)
    (coreError .invalidState "DNS resolver requires initialized worker lifecycle")
  require (0 < config.limits.maximumOutstandingQueries ∧
      config.limits.maximumOutstandingQueries ≤ maximumQueryCapacity ∧
      0 < config.limits.maximumResultAddresses ∧
      config.limits.maximumResultAddresses ≤ maximumAddressCapacity ∧
      0 < config.limits.timeoutMilliseconds ∧ 0 < config.limits.attempts ∧
      config.limits.timeoutMilliseconds ≤ 2147483647 ∧ config.limits.attempts ≤ 2147483647 ∧
      config.nameserverCount ≤ maximumNameserverCapacity ∧ config.hasSink = true)
    (coreError .invalidInput "DNS resolver limits, nameservers, or callback are invalid")
  require (config.allocated = true)
    (coreError .exhaustion "DNS resolver state allocation failed")
  if config.nameserverCount ≠ 0 then
    config.appended
    return { limits := config.limits, hasExplicitNameservers := true }
  else return { limits := config.limits }

inductive Returned
  | created (result : Result ℕ)
  | resolved (state : Option ℕ) (result : Result DnsQueryToken)
  | status (result : Result Unit)
  | done
  deriving DecidableEq

/-- All resolver states and the handles that own them. The frames are the calls that
wait for the completion sink to return, innermost first. -/
structure World where
  states : Table State := .empty
  handles : Table (Option ℕ) := .empty
  frames : List Returned := []

inductive Call
  | create (config : DnsResolverConfig)
  | resolve (handle : ℕ) (hostname : List (BitVec 8)) (family : DnsQueryFamily) (native : Native)
  | cancel (handle : ℕ) (token : DnsQueryToken) (native : Native)
  | processEvents (handle : ℕ) (events : List DnsSocketEvent) (native : Native)
  | processTimeout (handle : ℕ) (native : Native)
  | moveConstruct (handle : ℕ)
  | moveAssign (handle other : ℕ) (native : Native)
  | destroy (handle : ℕ) (native : Native)
  | sinkReturn

/-- What can be observed of a step: a call that returns, a call of the sink of a state,
and a state that is deleted. -/
structure Output where
  returned : Option Returned := none
  sink : Option (ℕ × DnsQueryResult) := none
  deleted : Option ℕ := none

namespace World

/-- The call returns, or waits for the sink. -/
def conclude {α : Type} (w : World) (id : ℕ) (o : Outcome α) (returned : Returned) :
    Output × World :=
  let states := w.states.set id o.state
  match o.sink with
  | none => ({ returned := some returned }, { w with states := states })
  | some result =>
    ({ sink := some (id, result) }, { w with states := states, frames := returned :: w.frames })

/-- A call of a resolver through a handle. -/
def call {α : Type} (w : World) (handle : ℕ) (body : State → Option (Outcome α))
    (returned : Option ℕ → Result α → Returned) : Option (Output × World) := do
  match ← w.handles.get? handle with
  | none =>
    let inactive := coreError .invalidState "DNS resolver is inactive"
    return ({ returned := some (returned none (.error inactive)) }, w)
  | some id =>
    let s ← w.states.get? id
    let o ← body s
    return w.conclude id o (returned (some id) o.value)

/-- `DnsResolver::release`. -/
def release (w : World) (handle : ℕ) (n : Native) : Option (Option ℕ × World) := do
  match ← w.handles.get? handle with
  | none => return (none, w)
  | some id =>
    let s ← w.states.get? id
    let _ ← DnsResolvers.release s n
    return (some id, { w with states := w.states.erase id, handles := w.handles.set handle none })

end World

def step (w : World) : Call → Option (Output × World)
  | .create config =>
    match create config with
    | .error e => some ({ returned := some (.created (.error e)) }, w)
    | .ok s =>
      some ({ returned := some (.created (.ok w.handles.size)) },
        { w with states := w.states.push s, handles := w.handles.push (some w.states.size) })
  | .resolve handle hostname family n =>
    w.call handle (resolve · hostname family n) Returned.resolved
  | .cancel handle token n => w.call handle (cancel · token n) fun _ => Returned.status
  | .processEvents handle events n =>
    w.call handle (processEvents · events n) fun _ => Returned.status
  | .processTimeout handle n => w.call handle (processTimeout · n) fun _ => Returned.status
  | .moveConstruct handle => do
    let state ← w.handles.get? handle
    return ({ returned := some .done },
      { w with handles := (w.handles.set handle none).push state })
  | .moveAssign handle other n => do
    if handle = other then
      let _ ← w.handles.get? handle
      return ({ returned := some .done }, w)
    else
      let (deleted, w) ← w.release handle n
      let state ← w.handles.get? other
      return ({ returned := some .done, deleted := deleted },
        { w with handles := (w.handles.set other none).set handle state })
  | .destroy handle n => do
    let (deleted, w) ← w.release handle n
    return ({ returned := some .done, deleted := deleted },
      { w with handles := w.handles.erase handle })
  | .sinkReturn =>
    match w.frames with
    | [] => none
    | returned :: frames => some ({ returned := some returned }, { w with frames := frames })

/-- Every call may be made at any time, also from inside the sink. -/
def system : Runs.System World Call Output := ⟨fun _ _ => True, step⟩

end Laghu.DnsResolvers
