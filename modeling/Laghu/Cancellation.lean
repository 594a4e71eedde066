import Laghu.AtomicPrograms
import Laghu.Contract

/-!
Deadlines and cancellation. Threads race to finish an operation: the first
compare-exchange decides, and every later call reports what it decided. Each load,
compare-exchange and clock reading is one atomic action.
-/

namespace Laghu.Cancellation

open Contract AtomicPrograms

abbrev MonotonicInstant := BitVec 64

structure Deadline where
  instant : MonotonicInstant
  deriving DecidableEq

inductive CancellationTerminal
  | pending | completed | cancelled
  deriving DecidableEq, Repr

inductive CancellationCause
  | none | explicitRequest | deadlineExpired
  deriving DecidableEq, Repr

structure CancellationOutcome where
  terminal : CancellationTerminal
  cause : CancellationCause
  deriving DecidableEq, Repr

def CancellationOutcome.isTerminal (o : CancellationOutcome) : Bool := o.terminal != .pending

def CancellationOutcome.isCancelled (o : CancellationOutcome) : Bool := o.terminal == .cancelled

/-- The value of the atomic in a `CancellationState`. -/
inductive StoredTerminal
  | pending | completed | cancelledExplicit | cancelledDeadline
  deriving DecidableEq, Repr

/-- The switch in `CancellationState::outcome`. -/
def StoredTerminal.outcome : StoredTerminal → CancellationOutcome
  | .pending => ⟨.pending, .none⟩
  | .completed => ⟨.completed, .none⟩
  | .cancelledExplicit => ⟨.cancelled, .explicitRequest⟩
  | .cancelledDeadline => ⟨.cancelled, .deadlineExpired⟩

/-- `now` is a clock that cannot fail, `monotonicNow` the function of a
`ClockOperations` table. -/
inductive Action
  | load (state : ℕ)
  | compareExchange (state : ℕ) (requested : StoredTerminal)
  | now
  | monotonicNow

/-- A compare-exchange from `pending` answers whether it succeeded. -/
def Answer : Action → Type
  | .load _ => StoredTerminal
  | .compareExchange _ _ => Bool
  | .now => MonotonicInstant
  | .monotonicNow => Result MonotonicInstant

/-- What the clocks show when a call reads them. -/
structure Clocks where
  now : MonotonicInstant := 0#64
  monotonicNow : Result MonotonicInstant := .ok 0#64

/-- All cancellation states of a program. -/
abbrev States := ℕ → StoredTerminal

def answer (states : States) (clocks : Clocks) : (a : Action) → Answer a × States
  | .load state => (states state, states)
  | .compareExchange state requested =>
    if states state = .pending then
      (true, fun other => if other = state then requested else states other)
    else (false, states)
  | .now => (clocks.now, states)
  | .monotonicNow => (clocks.monotonicNow, states)

def load (state : ℕ) : Program Answer StoredTerminal :=
  Program.perform (R := Answer) (Action.load state)

/-- `compare_exchange_strong` with `pending` as the expected value. -/
def compareExchange (state : ℕ) (requested : StoredTerminal) : Program Answer Bool :=
  Program.perform (R := Answer) (Action.compareExchange state requested)

def clockNow : Program Answer MonotonicInstant := Program.perform (R := Answer) Action.now

def clockMonotonicNow : Program Answer (Result MonotonicInstant) :=
  Program.perform (R := Answer) Action.monotonicNow

/-- Whether `monotonic_now` is non-null. -/
structure ClockOperations where
  monotonicNow : Bool
  deriving DecidableEq

def readMonotonicClock (operations : ClockOperations) : Program Answer (Result MonotonicInstant) :=
  if !operations.monotonicNow then
    return .error (coreError .invalidState "monotonic clock operation is missing")
  else clockMonotonicNow

/-- `Deadline::expired` with a clock that cannot fail. -/
def Deadline.expired (deadline : Deadline) : Program Answer Bool := do
  let now ← clockNow
  return decide (deadline.instant ≤ now)

/-- `Deadline::expired` with a table of clock operations. -/
def Deadline.expiredBy (deadline : Deadline) (operations : ClockOperations) :
    Program Answer (Result Bool) := do
  match ← readMonotonicClock operations with
  | .error e => return .error e
  | .ok now => return .ok (decide (deadline.instant ≤ now))

namespace CancellationState

def outcome (state : ℕ) : Program Answer CancellationOutcome := do
  let stored ← load state
  return stored.outcome

def finish (state : ℕ) (requested : StoredTerminal) : Program Answer CancellationOutcome := do
  match ← compareExchange state requested with
  | true => outcome state
  | false => outcome state

end CancellationState

/-- `states_[0]` and the states of the ancestors, nearest first. -/
structure CancellationToken where
  own : ℕ
  ancestors : List ℕ := []

namespace CancellationToken

/-- The loop over the ancestors in `outcome`. -/
def inherited (own : CancellationOutcome) : List ℕ → Program Answer CancellationOutcome
  | [] => return own
  | state :: rest => do
    let inheritedOutcome ← CancellationState.outcome state
    if inheritedOutcome.isCancelled then return inheritedOutcome else inherited own rest

def outcome (token : CancellationToken) : Program Answer CancellationOutcome := do
  let own ← CancellationState.outcome token.own
  if own.isTerminal then return own else inherited own token.ancestors

end CancellationToken

/-- A source is used through the state it refers to. -/
structure CancellationSource where
  state : ℕ

namespace CancellationSource

def token (source : CancellationSource) : CancellationToken := { own := source.state }

def complete (source : CancellationSource) : Program Answer CancellationOutcome :=
  CancellationState.finish source.state .completed

def cancel (source : CancellationSource) : Program Answer CancellationOutcome :=
  CancellationState.finish source.state .cancelledExplicit

/-- The overload for a clock that cannot fail. -/
def cancelIfExpired (source : CancellationSource) (deadline : Deadline) :
    Program Answer CancellationOutcome := do
  if !(← deadline.expired) then CancellationState.outcome source.state
  else CancellationState.finish source.state .cancelledDeadline

/-- The overload for a table of clock operations. -/
def cancelIfExpiredBy (source : CancellationSource) (deadline : Deadline)
    (operations : ClockOperations) : Program Answer (Result CancellationOutcome) := do
  let existing ← CancellationState.outcome source.state
  if existing.isTerminal then return .ok existing
  else
    match ← deadline.expiredBy operations with
    | .error e => return .error e
    | .ok expired =>
      if !expired then return .ok (← CancellationState.outcome source.state)
      else return .ok (← CancellationState.finish source.state .cancelledDeadline)

end CancellationSource

inductive Call
  | complete (source : CancellationSource)
  | cancel (source : CancellationSource)
  | cancelIfExpired (source : CancellationSource) (deadline : Deadline)
  | cancelIfExpiredBy (source : CancellationSource) (deadline : Deadline)
      (operations : ClockOperations)
  | outcome (token : CancellationToken)

/-- A call that cannot fail returns its outcome as a success. -/
def body : Call → Program Answer (Result CancellationOutcome)
  | .complete source => return .ok (← source.complete)
  | .cancel source => return .ok (← source.cancel)
  | .cancelIfExpired source deadline => return .ok (← source.cancelIfExpired deadline)
  | .cancelIfExpiredBy source deadline operations => source.cancelIfExpiredBy deadline operations
  | .outcome token => return .ok (← token.outcome)

def machine : Machine Answer (Result CancellationOutcome) Call States Clocks where
  body := body
  answer := answer

/-- Every state starts out pending, and no call is in progress. -/
def initial : Config Answer (Result CancellationOutcome) Call States := ⟨fun _ => .pending, []⟩

end Laghu.Cancellation
