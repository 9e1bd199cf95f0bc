import SwarmAuth.Python.Json
import SwarmAuth.Lib.Checks

/-!
# Exceptions

The exception hierarchy of `exceptions.py` and the built-in exceptions the modelled
functions let through. A message is an f-string: its literal text and the values it
interpolates.

## Main definitions

* `ErrorClass`, `ErrorClass.code` — the classes and their codes.
* `PyError` — what a call can raise.
* `PyError.formatted` — what is raised when a message cannot be formatted.
-/
namespace SwarmAuth.Python

/-- The classes below `SwarmAuthError`. -/
inductive ErrorClass where
  | malformedToken | invalidSignature | tokenExpired | tokenNotYetValid | tokenRevoked
  | audienceMismatch | unknownIssuer | capabilityViolation | constraintViolation
  | policyViolation | delegation
  deriving DecidableEq, Repr

/-- The stable, language-independent identifier of a class. -/
def ErrorClass.code : ErrorClass → String
  | malformedToken => "MALFORMED_TOKEN"
  | invalidSignature => "INVALID_SIGNATURE"
  | tokenExpired => "TOKEN_EXPIRED"
  | tokenNotYetValid => "TOKEN_NOT_YET_VALID"
  | tokenRevoked => "TOKEN_REVOKED"
  | audienceMismatch => "AUDIENCE_MISMATCH"
  | unknownIssuer => "UNKNOWN_ISSUER"
  | capabilityViolation => "CAPABILITY_VIOLATION"
  | constraintViolation => "CONSTRAINT_VIOLATION"
  | policyViolation => "POLICY_VIOLATION"
  | delegation => "DELEGATION_VIOLATION"

/-- A piece of an f-string: text, a `str`, an `int`, a value's `repr`, an exception. -/
inductive Piece where
  | text (s : String)
  | str (s : Units)
  | int (n : ℤ)
  | repr (v : Value)
  | cause
  deriving DecidableEq

/-- What a call can raise; `constraint` is the attribute of constraint violations,
`required` and `granted` those of capability violations. -/
inductive PyError where
  | swarmAuth (cls : ErrorClass) (message : List Piece) (constraint : Option String)
      (required : Option Units) (granted : List Units)
  | valueError (message : List Piece)
  | overflowError
  deriving DecidableEq

/-- A `SwarmAuthError` without attributes. -/
def PyError.of (cls : ErrorClass) (message : List Piece) : PyError :=
  .swarmAuth cls message none none []

/-- `ConstraintViolationError(message, constraint=...)`. -/
def constraintViolation (message : List Piece) (constraint : String) : PyError :=
  .swarmAuth .constraintViolation message (some constraint) none []

/-- Whether `str` and `repr` write a scalar; they write integers of at most 4300 digits. -/
def shown : Scalar → Bool
  | .int n => (natText n.natAbs).length ≤ 4300
  | _ => true

/-- Whether a piece can be formatted. -/
def Piece.formats : Piece → Bool
  | .int n => shown (.int n)
  | .repr v => v.allScalars shown
  | _ => true

/-- `ValueError` of an integer that is too long to be written. -/
def tooLong : PyError := .valueError [.text "Exceeds the limit for integer string conversion"]

/-- The exception, or the one that formatting its message raises. -/
def PyError.formatted : PyError → PyError
  | .swarmAuth cls message constraint required granted =>
      if message.all Piece.formats then .swarmAuth cls message constraint required granted else tooLong
  | e => e

/-- A call's outcome. -/
abbrev Outcome := Except PyError

end SwarmAuth.Python
