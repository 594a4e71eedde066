import Mathlib.Algebra.Group.Nat.Defs

/-!
Errors, fallible results and worker identities shared by every core component.
A function that can stop the process returns an `Option`: `none` stands for
`std::terminate` and for following a dangling pointer, which are both failures
a caller cannot recover from. A recoverable failure is an `Error` in a `Result`.
-/

namespace Laghu.Contract

/-- `std::size_t` and `std::uint64_t` of the supported 64-bit targets. -/
abbrev Size := BitVec 64

/-- `std::numeric_limits<std::size_t>::max()`. -/
def sizeMax : Size := 18446744073709551615#64

theorem size_eq_zero (n : Size) : n = 0#64 ↔ n.toNat = 0 :=
  ⟨fun h => by rw [h]; rfl, fun h => BitVec.eq_of_toNat_eq h⟩

inductive ErrorDomain
  | core | posix | dependency | crypto
  deriving DecidableEq, Repr

inductive ErrorCode
  | invalidInput | invalidRange | overflow | exhaustion | unavailableCapability
  | invalidState | cancellation | deadline | io | corruptData | unsupportedVersion
  | checksum | dependency | crypto
  deriving DecidableEq, Repr

structure Error where
  domain : ErrorDomain
  code : ErrorCode
  nativeCode : Int := 0
  diagnostic : String := ""
  deriving DecidableEq, Repr

abbrev Result (α : Type) := Except Error α

/-- Both steps of a fallible computation succeed. -/
theorem bind_eq_ok {ε α β : Type} {x : Except ε α} {f : α → Except ε β} {b : β} :
    (x >>= f) = .ok b ↔ ∃ a, x = .ok a ∧ f a = .ok b := by
  cases x with
  | error e => simp [Bind.bind, Except.bind]
  | ok a => simp [Bind.bind, Except.bind]

/-- A check that returns early with an error when it fails. -/
def require (p : Prop) [Decidable p] (e : Error) : Result Unit := if p then .ok () else .error e

theorem require_eq_ok {p : Prop} [Decidable p] {e : Error} {u : Unit} :
    require p e = .ok u ↔ p := by
  unfold require
  split <;> simp [*]

/-- A failure reported under another error. -/
def orError {α : Type} (x : Result α) (e : Error) : Result α :=
  match x with
  | .error _ => .error e
  | .ok a => .ok a

theorem orError_eq_ok {α : Type} {x : Result α} {e : Error} {a : α} :
    orError x e = .ok a ↔ x = .ok a := by
  cases x <;> simp [orError]

def coreError (code : ErrorCode) (diagnostic : String) : Error :=
  { domain := .core, code := code, nativeCode := 0, diagnostic := diagnostic }

namespace Errno

/-! The values of the supported Linux targets. -/

def ENOMEM : Int := 12

def EINVAL : Int := 22

def ERANGE : Int := 34

def ENOSYS : Int := 38

def EBADMSG : Int := 74

def EOVERFLOW : Int := 75

def EILSEQ : Int := 84

def EOPNOTSUPP : Int := 95

def ENOTSUP : Int := 95

def ETIMEDOUT : Int := 110

def ECANCELED : Int := 125

end Errno

def normalizeErrno (nativeCode : Int) : ErrorCode :=
  if nativeCode = Errno.EINVAL then .invalidInput
  else if nativeCode = Errno.ERANGE then .invalidRange
  else if nativeCode = Errno.EOVERFLOW then .overflow
  else if nativeCode = Errno.ENOMEM then .exhaustion
  else if nativeCode = Errno.ECANCELED then .cancellation
  else if nativeCode = Errno.ETIMEDOUT then .deadline
  else if nativeCode = Errno.EILSEQ ∨ nativeCode = Errno.EBADMSG then .corruptData
  else if nativeCode = Errno.ENOSYS ∨ nativeCode = Errno.ENOTSUP ∨
      nativeCode = Errno.EOPNOTSUPP then .unavailableCapability
  else .io

def Error.fromErrno (nativeCode : Int) (diagnostic : String) : Error where
  domain := .posix
  code := normalizeErrno nativeCode
  nativeCode := nativeCode
  diagnostic := diagnostic

/-- A strong identifier is never zero; `from_uint64` is its only constructor. -/
structure WorkerId where
  value : BitVec 64
  nonzero : value ≠ 0#64
  deriving DecidableEq

theorem WorkerId.value_inj (a b : WorkerId) : a.value = b.value ↔ a = b := by
  constructor
  · intro h
    cases a
    cases b
    cases h
    rfl
  · rintro rfl
    rfl

end Laghu.Contract
