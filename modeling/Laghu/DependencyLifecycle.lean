import Laghu.DependencyErrors
import Laghu.ObjectTable
import Laghu.Rollback
import Laghu.Runs

/-!
The registry of runtime dependencies. The master runs every preflight hook before
it forks, each forked worker runs the worker hooks, and either side takes back
what it brought up in the opposite order. Every process has a copy of the
registry; the calls of its hooks are recorded per process.
-/

namespace Laghu.DependencyLifecycle

open Contract DependencyErrors ObjectTable Rollback

def isTlsProvider (dependency : DependencyId) : Bool :=
  dependency = .openssl || dependency = .libressl

/-- The hooks of a dependency that can fail. -/
inductive Stage
  | preflight | workerInitialize | workerCleanup | masterCleanup
  deriving DecidableEq

structure DependencyLiveState where
  sessions : BitVec 32 := 0#32
  contexts : BitVec 32 := 0#32
  threads : BitVec 32 := 0#32
  callbacks : BitVec 32 := 0#32
  deriving DecidableEq

def DependencyLiveState.isQuiescent (state : DependencyLiveState) : Bool :=
  state.sessions = 0#32 && state.contexts = 0#32 && state.threads = 0#32 && state.callbacks = 0#32

/-- Which functions of the table are non-null; what a call of one returns is up
to its owner. -/
structure DependencyLifecycleHooks where
  dependency : DependencyId := .none
  action : Stage → Bool := fun _ => false
  liveState : Bool := false

def DependencyLifecycleHooks.valid (hooks : DependencyLifecycleHooks) : Bool :=
  hooks.dependency ≠ .none && isKnownDependencyId hooks.dependency && hooks.action .preflight &&
    hooks.action .workerInitialize && hooks.action .workerCleanup &&
    hooks.action .masterCleanup && hooks.liveState

structure DependencyForkEpoch where
  masterProcess : ℕ := 0
  value : BitVec 64 := 0#64
  deriving DecidableEq

def DependencyForkEpoch.valid (epoch : DependencyForkEpoch) : Bool :=
  epoch.masterProcess ≠ 0 && epoch.value ≠ 0#64

inductive DependencyLifecyclePhase
  | collecting | preflighted | preflightFailed | preflightRollbackFailed | forkReady | workerReady
  | workerRolledBack | workerRollbackFailed | workerCleaned | workerCleanupFailed | masterCleaned
  | masterCleanupFailed
  deriving DecidableEq

/-- One call of a hook of the dependency in `slot`. -/
inductive HookCall
  | action (stage : Stage) (slot : ℕ) (result : Result Unit)
  | liveState (slot : ℕ) (state : DependencyLiveState)
  deriving DecidableEq

/-- What the hooks return during one call of the registry, which calls no hook
of a dependency twice. -/
structure Replies where
  action : Stage → ℕ → Result Unit := fun _ _ => .ok ()
  liveState : ℕ → DependencyLiveState := fun _ => {}

def dependencyLifecycleCapacity : ℕ := 14

/-- The hooks that are registered are the first `count_` entries of `hooks_`. -/
structure DependencyLifecycleRegistry where
  hooks : List DependencyLifecycleHooks := []
  phase : DependencyLifecyclePhase := .collecting
  terminalFailure : Error := coreError .invalidState ""
  masterProcess : ℕ
  workerProcess : ℕ := 0
  forkEpoch : BitVec 64 := 0#64
  preflightedCount : ℕ := 0
  workerInitializedCount : ℕ := 0
  hasTerminalFailure : Bool := false

/-- What a call of the registry returns, the registry it leaves and the hooks it
calls. -/
structure Answer (α : Type) where
  result : Result α
  registry : DependencyLifecycleRegistry
  calls : List HookCall := []

/-- The two halves of the protocol, which differ only in hooks, counters and
phases. -/
inductive Side
  | master | worker
  deriving DecidableEq

namespace Side

def setUp : Side → Stage
  | .master => .preflight
  | .worker => .workerInitialize

def cleanup : Side → Stage
  | .master => .masterCleanup
  | .worker => .workerCleanup

def ready : Side → DependencyLifecyclePhase
  | .master => .preflighted
  | .worker => .workerReady

def rolledBack : Side → DependencyLifecyclePhase
  | .master => .preflightFailed
  | .worker => .workerRolledBack

def rollbackFailed : Side → DependencyLifecyclePhase
  | .master => .preflightRollbackFailed
  | .worker => .workerRollbackFailed

def cleaned : Side → DependencyLifecyclePhase
  | .master => .masterCleaned
  | .worker => .workerCleaned

def cleanupFailed : Side → DependencyLifecyclePhase
  | .master => .masterCleanupFailed
  | .worker => .workerCleanupFailed

end Side

namespace DependencyLifecycleRegistry

def fail {α : Type} (r : DependencyLifecycleRegistry) (code : ErrorCode) (diagnostic : String) :
    Answer α :=
  ⟨.error (coreError code diagnostic), r, []⟩

def isMasterProcess (r : DependencyLifecycleRegistry) (process : ℕ) : Bool :=
  r.masterProcess ≠ 0 && process = r.masterProcess

/-- `persistent_failure` and `persistent_fork_failure`. -/
def persistentFailure {α : Type} (r : DependencyLifecycleRegistry) : Result α :=
  if !r.hasTerminalFailure then
    .error (coreError .invalidState "dependency lifecycle failure state is missing detail")
  else .error r.terminalFailure

def setTerminalFailure (r : DependencyLifecycleRegistry) (phase : DependencyLifecyclePhase)
    (failure : Error) : DependencyLifecycleRegistry :=
  { r with terminalFailure := failure, hasTerminalFailure := true, phase := phase }

/-- `preflighted_count_` or `worker_initialized_count_`. -/
def count (r : DependencyLifecycleRegistry) : Side → ℕ
  | .master => r.preflightedCount
  | .worker => r.workerInitializedCount

def setCount (r : DependencyLifecycleRegistry) (count : ℕ) : Side → DependencyLifecycleRegistry
  | .master => { r with preflightedCount := count }
  | .worker => { r with workerInitializedCount := count }

def actions (stage : Stage) (attempts : Attempts Error) : List HookCall :=
  attempts.map fun attempt => .action stage attempt.1 attempt.2

/-- The loop of `preflight` and of `worker_initialize`, with its rollback. -/
def bringUp (side : Side) (r : DependencyLifecycleRegistry) (replies : Replies) : Answer Unit :=
  match climb (replies.action side.setUp) r.hooks.length 0 (r.count side) with
  | (attempts, count, none) =>
    ⟨.ok (), { r.setCount count side with phase := side.ready }, actions side.setUp attempts⟩
  | (attempts, count, some e) =>
    match unwind (replies.action side.cleanup) count none with
    | (undone, some first) =>
      ⟨.error first, (r.setCount 0 side).setTerminalFailure side.rollbackFailed first,
        actions side.setUp attempts ++ actions side.cleanup undone⟩
    | (undone, none) =>
      ⟨.error e, { r.setCount 0 side with phase := side.rolledBack },
        actions side.setUp attempts ++ actions side.cleanup undone⟩

/-- The loop of `master_cleanup` and of `worker_cleanup`. -/
def tearDown (side : Side) (r : DependencyLifecycleRegistry) (replies : Replies) : Answer Unit :=
  match unwind (replies.action side.cleanup) (r.count side) none with
  | (undone, some first) =>
    let failed := (r.setCount 0 side).setTerminalFailure side.cleanupFailed first
    ⟨failed.persistentFailure, failed, actions side.cleanup undone⟩
  | (undone, none) =>
    ⟨.ok (), { r.setCount 0 side with phase := side.cleaned }, actions side.cleanup undone⟩

/-- The loop over the registered hooks in `register_dependency`. -/
def conflict (dependency : DependencyId) : List DependencyLifecycleHooks → Option String
  | [] => none
  | hooks :: rest =>
    if hooks.dependency = dependency then some "dependency lifecycle registration is duplicate"
    else if isTlsProvider hooks.dependency && isTlsProvider dependency then
      some "dependency lifecycle TLS providers conflict"
    else conflict dependency rest

def registerDependency (r : DependencyLifecycleRegistry) (process : ℕ)
    (hooks : DependencyLifecycleHooks) : Answer Unit :=
  if !r.isMasterProcess process then
    r.fail .invalidState "dependency lifecycle registration requires master owner"
  else if r.phase ≠ .collecting then
    r.fail .invalidState "dependency lifecycle registration transition is invalid"
  else if !hooks.valid then r.fail .invalidInput "dependency lifecycle hooks are invalid"
  else
    match conflict hooks.dependency r.hooks with
    | some diagnostic => r.fail .invalidState diagnostic
    | none =>
      if r.hooks.length = dependencyLifecycleCapacity then
        r.fail .exhaustion "dependency lifecycle registry capacity exhausted"
      else ⟨.ok (), { r with hooks := r.hooks ++ [hooks] }, []⟩

def preflight (r : DependencyLifecycleRegistry) (process : ℕ) (replies : Replies) : Answer Unit :=
  if !r.isMasterProcess process then
    r.fail .invalidState "dependency lifecycle preflight requires master owner"
  else if r.phase = .preflighted ∨ r.phase = .forkReady then ⟨.ok (), r, []⟩
  else if r.phase = .preflightRollbackFailed then ⟨r.persistentFailure, r, []⟩
  else if r.phase ≠ .collecting then
    r.fail .invalidState "dependency lifecycle preflight transition is invalid"
  else bringUp .master r replies

/-- The loop of `prepare_fork`: the states read, and whether all are quiescent. -/
def readLiveStates (replies : Replies) : ℕ → ℕ → List HookCall × Bool
  | 0, _ => ([], true)
  | remaining + 1, index =>
    let state := replies.liveState index
    if !state.isQuiescent then ([.liveState index state], false)
    else
      let rest := readLiveStates replies remaining (index + 1)
      (.liveState index state :: rest.1, rest.2)

def prepareFork (r : DependencyLifecycleRegistry) (process : ℕ) (masterThreadCount : BitVec 32)
    (replies : Replies) : Answer DependencyForkEpoch :=
  if !r.isMasterProcess process then
    r.fail .invalidState "dependency lifecycle fork requires master owner"
  else if r.phase = .preflightRollbackFailed ∨ r.phase = .masterCleanupFailed then
    ⟨r.persistentFailure, r, []⟩
  else if r.phase ≠ .preflighted ∧ r.phase ≠ .forkReady then
    r.fail .invalidState "dependency lifecycle fork transition is invalid"
  else if masterThreadCount ≠ 1#32 then
    r.fail .invalidState "dependency lifecycle fork requires one master thread"
  else
    let read := readLiveStates replies r.hooks.length 0
    if !read.2 then
      { r.fail .invalidState "dependency lifecycle fork requires quiescent state" with
        calls := read.1 }
    else if r.phase = .forkReady then ⟨.ok ⟨r.masterProcess, r.forkEpoch⟩, r, read.1⟩
    else if r.forkEpoch = sizeMax then
      { r.fail .overflow "dependency lifecycle fork epoch is exhausted" with calls := read.1 }
    else
      ⟨.ok ⟨r.masterProcess, r.forkEpoch + 1#64⟩,
        { r with forkEpoch := r.forkEpoch + 1#64, phase := .forkReady }, read.1⟩

def workerInitialize (r : DependencyLifecycleRegistry) (process : ℕ) (epoch : DependencyForkEpoch)
    (replies : Replies) : Answer Unit :=
  if !epoch.valid ∨ epoch.masterProcess ≠ r.masterProcess ∨ epoch.value ≠ r.forkEpoch then
    r.fail .invalidState "dependency lifecycle worker epoch is invalid"
  else if process = 0 ∨ process = r.masterProcess then
    r.fail .invalidState "dependency lifecycle worker initialization requires forked child"
  else if r.phase = .workerRollbackFailed ∨ r.phase = .workerCleanupFailed then
    ⟨r.persistentFailure, r, []⟩
  else if r.phase = .workerReady ∧ r.workerProcess = process then ⟨.ok (), r, []⟩
  else if r.phase ≠ .forkReady then
    r.fail .invalidState "dependency lifecycle worker initialization transition is invalid"
  else bringUp .worker { r with workerProcess := process } replies

def workerCleanup (r : DependencyLifecycleRegistry) (process : ℕ) (replies : Replies) :
    Answer Unit :=
  if process = 0 ∨ process = r.masterProcess ∨ process ≠ r.workerProcess then
    r.fail .invalidState "dependency lifecycle worker cleanup requires worker owner"
  else if r.phase = .workerRollbackFailed ∨ r.phase = .workerCleanupFailed then
    ⟨r.persistentFailure, r, []⟩
  else if r.phase = .workerRolledBack ∨ r.phase = .workerCleaned then ⟨.ok (), r, []⟩
  else if r.phase ≠ .workerReady then
    r.fail .invalidState "dependency lifecycle worker cleanup transition is invalid"
  else tearDown .worker r replies

def masterCleanup (r : DependencyLifecycleRegistry) (process : ℕ) (replies : Replies) :
    Answer Unit :=
  if !r.isMasterProcess process then
    r.fail .invalidState "dependency lifecycle master cleanup requires master owner"
  else if r.phase = .preflightRollbackFailed ∨ r.phase = .masterCleanupFailed then
    ⟨r.persistentFailure, r, []⟩
  else if r.phase = .masterCleaned ∨ r.phase = .preflightFailed then ⟨.ok (), r, []⟩
  else if r.phase ≠ .preflighted ∧ r.phase ≠ .forkReady then
    r.fail .invalidState "dependency lifecycle master cleanup transition is invalid"
  else tearDown .master r replies

end DependencyLifecycleRegistry

/-- A process, its copy of the registry and the hooks called in it so far. -/
structure Process where
  id : ℕ
  registry : DependencyLifecycleRegistry
  log : List HookCall := []

abbrev World := Table Process

inductive Entry
  | registerDependency (hooks : DependencyLifecycleHooks)
  | preflight
  | prepareFork (masterThreadCount : BitVec 32)
  | workerInitialize (epoch : DependencyForkEpoch)
  | workerCleanup
  | masterCleanup

/-- Only `prepare_fork` returns a value, the epoch. -/
inductive Returned
  | status (result : Result Unit)
  | epoch (result : Result DependencyForkEpoch)
  deriving DecidableEq

def Answer.status (a : Answer Unit) : Returned × DependencyLifecycleRegistry × List HookCall :=
  (.status a.result, a.registry, a.calls)

def enter (r : DependencyLifecycleRegistry) (process : ℕ) (replies : Replies) :
    Entry → Returned × DependencyLifecycleRegistry × List HookCall
  | .registerDependency hooks => (r.registerDependency process hooks).status
  | .preflight => (r.preflight process replies).status
  | .prepareFork masterThreadCount =>
    let a := r.prepareFork process masterThreadCount replies
    (.epoch a.result, a.registry, a.calls)
  | .workerInitialize epoch => (r.workerInitialize process epoch replies).status
  | .workerCleanup => (r.workerCleanup process replies).status
  | .masterCleanup => (r.masterCleanup process replies).status

inductive Call
  | enter (process : ℕ) (entry : Entry) (replies : Replies)
  | fork (parent id : ℕ)

inductive Output
  | returned (value : Returned) (calls : List HookCall)
  | forked (child : ℕ)

def step (w : World) : Call → Option (Output × World)
  | .enter i entry replies => do
    let p ← w.get? i
    let (value, registry, calls) := enter p.registry p.id replies entry
    return (.returned value calls,
      w.set i { p with registry := registry, log := p.log ++ calls })
  | .fork parent id => do
    let p ← w.get? parent
    return (.forked w.size, w.push { id := id, registry := p.registry })

/-- Process ids are positive and never reused. -/
def legal (w : World) : Call → Prop
  | .enter _ _ _ => True
  | .fork _ id => id ≠ 0 ∧ ∀ i p, w.get? i = some p → p.id ≠ id

def system : Runs.System World Call Output := ⟨legal, step⟩

/-- The master with a new registry. -/
def initial (master : ℕ) : World :=
  Table.empty.push { id := master, registry := { masterProcess := master } }

end Laghu.DependencyLifecycle
