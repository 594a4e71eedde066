import Laghu.Cancellation

/-!
Tokens observe a state and the states of its ancestors. A child copies the chain
of its parent, so the chains of a program form a forest that nobody can change;
only the states they lead to change.
-/

namespace Laghu.Cancellation

open Contract AtomicPrograms

def Deadline.deadlineError : Error := coreError .deadline "monotonic deadline expired"

def Deadline.requireNotExpired (deadline : Deadline) : Program Answer (Result Unit) := do
  if ← deadline.expired then return .error Deadline.deadlineError else return .ok ()

def Deadline.requireNotExpiredBy (deadline : Deadline) (operations : ClockOperations) :
    Program Answer (Result Unit) := do
  match ← deadline.expiredBy operations with
  | .error e => return .error e
  | .ok isExpired => if isExpired then return .error Deadline.deadlineError else return .ok ()

def CancellationOutcome.cancellationError (cause : CancellationCause) : Error :=
  if cause = .deadlineExpired then Deadline.deadlineError
  else coreError .cancellation "operation cancellation was requested"

def CancellationOutcome.requireActive (o : CancellationOutcome) : Result Unit :=
  if o.terminal = .cancelled then .error (CancellationOutcome.cancellationError o.cause)
  else if o.terminal = .completed then
    .error (coreError .invalidState "operation has already completed")
  else .ok ()

namespace CancellationToken

def maximumParentDepth : ℕ := 8

/-- `states_[0]` to `states_[state_count_ - 1]`. -/
def states (token : CancellationToken) : List ℕ := token.own :: token.ancestors

/-- `child` looks for a cycle first; it copies the whole chain behind the new state. -/
def child (token : CancellationToken) (childState : ℕ) : Result CancellationToken :=
  if token.states.any (· == childState) then
    .error (coreError .invalidState "cancellation parent cycle is not allowed")
  else if token.states.length > maximumParentDepth then
    .error (coreError .invalidRange "cancellation parent depth exceeds 8")
  else .ok { own := childState, ancestors := token.states }

def requireActive (token : CancellationToken) : Program Answer (Result Unit) := do
  return (← token.outcome).requireActive

/-- The overload for a clock that cannot fail. -/
def requireActiveBefore (token : CancellationToken) (deadline : Deadline) :
    Program Answer (Result Unit) := do
  match ← token.requireActive with
  | .error e => return .error e
  | .ok () => deadline.requireNotExpired

/-- The overload for a table of clock operations. -/
def requireActiveBy (token : CancellationToken) (deadline : Deadline)
    (operations : ClockOperations) : Program Answer (Result Unit) := do
  match ← token.requireActive with
  | .error e => return .error e
  | .ok () => deadline.requireNotExpiredBy operations

/-- The tokens a program can hold. -/
inductive Built : CancellationToken → Prop
  | token (source : CancellationSource) : Built source.token
  | child {parent token : CancellationToken} {childState : ℕ} (parentBuilt : Built parent)
      (created : parent.child childState = .ok token) : Built token

end CancellationToken

inductive TokenCall
  | source (call : Call)
  | requireActive (token : CancellationToken)
  | requireActiveBefore (token : CancellationToken) (deadline : Deadline)
  | requireActiveBy (token : CancellationToken) (deadline : Deadline)
      (operations : ClockOperations)

inductive TokenResult
  | outcome (result : Result CancellationOutcome)
  | active (result : Result Unit)

def tokenBody : TokenCall → Program Answer TokenResult
  | .source call => return .outcome (← body call)
  | .requireActive token => return .active (← token.requireActive)
  | .requireActiveBefore token deadline => return .active (← token.requireActiveBefore deadline)
  | .requireActiveBy token deadline operations =>
    return .active (← token.requireActiveBy deadline operations)

/-- The calls on sources and tokens of any number of threads. -/
def tokenMachine : Machine Answer TokenResult TokenCall States Clocks where
  body := tokenBody
  answer := answer

def tokenInitial : Config Answer TokenResult TokenCall States := ⟨fun _ => .pending, []⟩

end Laghu.Cancellation
