import SwarmAuth.Js.Value
import SwarmAuth.Lib.Base64Url
import SwarmAuth.Lib.Wildcard

/-!
# Tokens in Node

Parsing and verification in `index.js`. Claims are read from the object that was
validated; a limit or a delegation claim that is `null` or absent is none. Ed25519
verification is a predicate on key, data and signature; a revocation store is the answers
it gives; each link is judged at a clock read of its own, unless the caller fixes the time.

## Main definitions

* `validJson`, `validateClaims`, `parse` — the payload and its parsing.
* `KeyRegistry`, `verifyCore` — trust, and the checks on one link.
* `jsonEqual`, `capabilityCovered`, `assertAttenuated` — a child and its parent.
* `verify` — the source's function of that name.
-/
namespace SwarmAuth.Node

open Js

/-- `fail(code, message)`. -/
def malformed (message : String) : Thrown := .swarmAuth "MALFORMED_TOKEN" message

/-! ## Base64url -/

/-- `b64urlEncode`. -/
def b64urlEncode (data : Bytes) : Units := (Base64Url.encode data).map UInt16.ofNat

/-- `b64urlDecode`. -/
def b64urlDecode (text : Units) : Outcome Bytes :=
  if text.length % 4 = 1 then .error (malformed "Invalid base64url")
  else
    match Base64Url.decode (text.map UInt16.toNat) with
    | some bytes => if b64urlEncode bytes = text then .ok bytes
        else .error (malformed "Non-canonical base64url")
    | none => .error (malformed "Invalid base64url")

/-! ## Validation -/

/-- `isObject`. -/
def isObject : Value → Bool
  | .obj _ => true
  | _ => false

/-- `validJson` of a value without parts; `every` passes over a hole. -/
def validScalar : Scalar → Bool
  | .null | .bool _ => true
  | .number d => isFinite d && (!isInteger d || isSafeInteger d)
  | .hole => true
  | .undefined | .other => false

theorem portable_of_validScalar {w : Scalar} (h : validScalar w = true) (hw : w ≠ .hole) :
    portable w = true := by
  cases w with
  | null => rfl
  | bool b => rfl
  | number d => exact (Bool.and_eq_true_iff.mp h).1
  | undefined => cases h
  | other => cases h
  | hole => exact absurd rfl hw

theorem isFinite_of_isSafeInteger {d : Double} (h : isSafeInteger d = true) : isFinite d = true := by
  cases d with
  | finite neg mag => rfl
  | inf neg => cases h
  | nan => cases h

/-- `validJson`. -/
def validJson (value : Value) : Bool := value.allScalars validScalar

/-- A non-empty string. -/
def nonEmptyString : Value → Bool
  | .str s => s ≠ []
  | _ => false

/-- `Number.isSafeInteger(value)`. -/
def safeInteger : Value → Bool
  | .scalar (.number d) => isSafeInteger d
  | _ => false

/-- `a < b` of values that are numbers. -/
def numberLt : Value → Value → Bool
  | .scalar (.number a), .scalar (.number b) => lessThan a b
  | _, _ => false

/-- A number as a value. -/
def number (n : ℤ) : Value := .scalar (.number (.ofInt n))

/-- `!/^[A-Z]{3}$/.test(currency)` is false of a string. -/
def isCurrency : Value → Bool
  | .str s => s.length = 3 && s.all fun c => 65 ≤ c.toNat && c.toNat ≤ 90
  | _ => false

/-- `Object.keys(o)` are all among these names. -/
def onlyKeys (o : Object) (names : List Units) : Bool := o.all fun m => m.1 ∈ names

/-- `value ?? {}` of an object, as an object. -/
def objectOr : Value → Object
  | .obj o => o
  | _ => []

/-- A limit that is a count. -/
def validCount (value : Value) : Bool :=
  value.isNullish || (safeInteger value && !numberLt value (number 1))

/-- `max_amount_usd`. -/
def validAmount (value : Value) : Bool :=
  value.isNullish ||
    match value with
    | .scalar (.number d) => isFinite d && !lessThan d (.ofInt 0)
    | _ => false

/-- The pins that a shared budget asks for. -/
def budgetPins (budget : Value) (pins : Object) : Bool :=
  nonEmptyString budget && pins.get "budget_id" = budget && safeInteger (pins.get "amount_minor") &&
    !numberLt (pins.get "amount_minor") (number 0) && isCurrency (pins.get "currency")

/-- The checks of `validateClaims` on an object of constraints. -/
def validateConstraints (limits : Object) : Outcome Unit := do
  raiseIf (!onlyKeys limits ["max_calls", "max_amount_usd", "rate_limit_per_min", "allowed_params",
    "shared_budget"]) (malformed "Invalid constraints")
  raiseIf (!validCount (limits.get "max_calls")) (malformed "Invalid max_calls")
  raiseIf (!validCount (limits.get "rate_limit_per_min")) (malformed "Invalid rate_limit_per_min")
  raiseIf (!validAmount (limits.get "max_amount_usd")) (malformed "Invalid budget")
  raiseIf (limits.hasOwn "allowed_params" &&
    (!isObject (limits.get "allowed_params") || !validJson (limits.get "allowed_params")))
    (malformed "Invalid allowed_params")
  raiseIf (!(limits.get "shared_budget").isNullish &&
      !budgetPins (limits.get "shared_budget") (objectOr (limits.get "allowed_params")))
    (malformed "Shared budgets require matching budget and monetary pins")

/-- The fields of a payload that has the right ones. -/
def validFields (claims : Object) : Bool :=
  onlyKeys claims ["iss", "sub", "capabilities", "constraints", "iat", "exp", "jti", "dlg", "prf"] &&
    nonEmptyString (claims.get "iss") && nonEmptyString (claims.get "sub") &&
    nonEmptyString (claims.get "jti") &&
    (match claims.get "capabilities" with
      | .arr items => items ≠ [] && items.all fun item => item = Value.hole || nonEmptyString item
      | _ => false) &&
    safeInteger (claims.get "iat") && safeInteger (claims.get "exp") &&
    numberLt (claims.get "iat") (claims.get "exp")

/-- `validateClaims` of an object. -/
def validateObject (claims : Object) : Outcome Unit := do
  raiseIf (!validFields claims) (malformed "Invalid claims schema")
  raiseIf (!(claims.get "dlg").isNullish && !nonEmptyString (claims.get "dlg"))
    (malformed "Invalid dlg")
  raiseIf (!(claims.get "prf").isNullish && !nonEmptyString (claims.get "prf"))
    (malformed "Invalid prf")
  match claims.get "constraints" with
  | .obj limits => validateConstraints limits
  | .scalar .undefined => validateConstraints []
  | _ => .error (malformed "Invalid constraints")

/-- `validateClaims`. -/
def validateClaims : Value → Outcome Unit
  | .obj claims => validateObject claims
  | _ => .error (malformed "Invalid claims schema")

/-! ## Claims -/

/-- Validated constraints. -/
structure Constraints where
  allowedParams : Object := []
  maxAmountUsd : Option Double := none
  maxCalls : Option Double := none
  rateLimitPerMin : Option Double := none
  sharedBudget : Option Units := none
  deriving DecidableEq

/-- Validated claims. -/
structure Claims where
  iss : Units
  sub : Units
  jti : Units
  capabilities : List Units
  iat : Double
  exp : Double
  constraints : Constraints
  dlg : Option Units
  prf : Option Units
  deriving DecidableEq

/-- A string, none when it is `null` or absent. -/
def stringOf : Value → Option Units
  | .str s => some s
  | _ => none

/-- A number, none when it is `null` or absent. -/
def numberOf : Value → Option Double
  | .scalar (.number d) => some d
  | _ => none

/-- `emptyConstraints`, read. -/
def emptyConstraints (limits : Object) : Constraints where
  allowedParams := objectOr (limits.get "allowed_params")
  maxAmountUsd := numberOf (limits.get "max_amount_usd")
  maxCalls := numberOf (limits.get "max_calls")
  rateLimitPerMin := numberOf (limits.get "rate_limit_per_min")
  sharedBudget := stringOf (limits.get "shared_budget")

/-- The claims of a validated object. -/
def readClaims (claims : Object) : Claims where
  iss := (stringOf (claims.get "iss")).getD []
  sub := (stringOf (claims.get "sub")).getD []
  jti := (stringOf (claims.get "jti")).getD []
  capabilities :=
    match claims.get "capabilities" with
    | .arr items => items.filterMap stringOf
    | _ => []
  iat := (numberOf (claims.get "iat")).getD .nan
  exp := (numberOf (claims.get "exp")).getD .nan
  constraints := emptyConstraints (objectOr (claims.get "constraints"))
  dlg := stringOf (claims.get "dlg")
  prf := stringOf (claims.get "prf")

/-! ## Parsing -/

/-- A parsed token: header, claims, and the text the signature is over. -/
structure Parsed where
  header : Object
  claims : Claims
  signingInput : Units
  deriving DecidableEq

/-- The three segments of a token, none of them empty. -/
def segments (token : Units) : Option (Units × Units × Units) :=
  match token.splitOn 46 with
  | [h, p, s] => if h = [] ∨ p = [] ∨ s = [] then none else some (h, p, s)
  | _ => none

/-- `JSON.parse(decoder.decode(b64urlDecode(part)))`; the decoder drops a byte order mark. -/
def decodePart (part : Units) : Option Value :=
  match b64urlDecode part with
  | .ok bytes =>
      (utf8Decode false (if [0xEF, 0xBB, 0xBF] <+: bytes then bytes.drop 3 else bytes)).bind parseJson
  | .error _ => none

/-- The header is an object of this format and algorithm. -/
def supportedHeader : Value → Option Object
  | .obj header =>
      if Object.get header "typ" = .str "JCT" ∧ Object.get header "alg" = .str "EdDSA" then some header else none
  | _ => none

/-- `parse`. -/
def parse (token : Units) : Outcome Parsed := do
  let (h, p, s) ← orRaise (segments token) (malformed "Expected 3 non-empty segments")
  let header ← orRaise (decodePart h) (malformed "Token is not valid base64url JSON")
  let claims ← orRaise (decodePart p) (malformed "Token is not valid base64url JSON")
  raiseIf ((b64urlDecode s).isOk = false) (malformed "Token is not valid base64url JSON")
  let header ← orRaise (supportedHeader header) (malformed "Unsupported token header")
  validateClaims claims
  return ⟨header, readClaims (objectOr claims), h ++ [46] ++ p⟩

/-! ## Trust -/

/-- Trusted raw public keys by agent; no entry is an empty list. -/
structure KeyRegistry where
  roots : Units → List Bytes
  holders : Units → List Bytes

/-- `keysFor`, or of a holder `holderKeysFor`. -/
def KeyRegistry.trustedFor (reg : KeyRegistry) (iss : Units) (holder : Bool) :
    Outcome (List Bytes) := do
  let keys := if holder then reg.holders iss else reg.roots iss
  raiseIf (keys = []) (.swarmAuth "UNKNOWN_ISSUER"
    (if holder then "No holder key registered" else "No trusted key registered"))
  return keys

/-- Ed25519 verification of a signature: key, data, signature. -/
abbrev SignatureCheck := Bytes → Bytes → Bytes → Bool

/-- The options of `verify`; without a time the clock is read. -/
structure VerifyOptions where
  publicKey : Option Bytes := none
  registry : Option KeyRegistry := none
  audience : Option Units := none
  leewaySeconds : Option Double := none
  now : Option Double := none
  isRevoked : Units → Bool := fun _ => false

/-- `kidBytes`. -/
def kidBytes (header : Object) : Outcome Bytes := do
  raiseIf (!nonEmptyString (header.get "kid")) (malformed "Token header is missing kid")
  match b64urlDecode ((stringOf (header.get "kid")).getD []) with
  | .ok raw =>
      if raw.length ≠ 32 then .error (malformed "Token kid is not a 32-byte Ed25519 public key")
      else .ok raw
  | .error _ => .error (malformed "Token kid is not valid base64url")

section Verification
variable (ed : SignatureCheck) (o : VerifyOptions)

/-- `verifyEd25519`, or `fail`. -/
def verifySignature (key : Bytes) (signingInput : Units) (signature : Bytes) : Outcome Unit :=
  raiseIf (!ed key (asciiBytes (signingInput.map UInt16.toNat)) signature)
    (.swarmAuth "INVALID_SIGNATURE" "Ed25519 signature verification failed")

/-- `verifyKidAndSignature`. -/
def verifyKidAndSignature (r : Parsed) (signature : Bytes) (holder : Bool) : Outcome Unit := do
  let kid ← kidBytes r.header
  match o.registry with
  | some registry =>
      let trusted ← registry.trustedFor r.claims.iss holder
      raiseIf (kid ∉ trusted)
        (.swarmAuth "INVALID_SIGNATURE" "Token kid is not a trusted key for issuer")
      verifySignature ed kid r.signingInput signature
  | none =>
      raiseIf (holder = true) (.swarmAuth "DELEGATION_VIOLATION"
        "Delegated tokens require a key registry containing the root issuer and the delegate")
      let publicKey ← orRaise o.publicKey (.error "Pass exactly one of publicKey or registry")
      raiseIf (publicKey ≠ kid) (.swarmAuth "INVALID_SIGNATURE"
        "Token kid does not match the trusted issuer public key")
      verifySignature ed publicKey r.signingInput signature

/-- `checkLifetime`. -/
def checkLifetime (iat exp leewaySeconds now : Double) : Outcome Unit := do
  raiseIf (!isSafeInteger iat || !isSafeInteger exp || !lessThan iat exp)
    (malformed "Invalid lifetime")
  raiseIf (!isInteger leewaySeconds || lessThan leewaySeconds (.ofInt 0) ||
      lessThan (.ofInt 2) leewaySeconds || !isFinite now)
    (.rangeError "Invalid clock or leeway (must be 0..2 seconds)")
  raiseIf (lessThan (.ofInt 30) (minus exp iat)) (.swarmAuth "TOKEN_EXPIRED" "Token TTL exceeds max")
  raiseIf (lessThan now (minus iat leewaySeconds))
    (.swarmAuth "TOKEN_NOT_YET_VALID" "Token not valid until iat")
  raiseIf (lessThan (plus exp leewaySeconds) now) (.swarmAuth "TOKEN_EXPIRED" "Token expired at exp")

/-- `b64urlDecode(token.split(".")[2])`. -/
def signatureOf (token : Units) : Outcome Bytes := b64urlDecode ((token.splitOn 46)[2]?.getD [])

/-- `verifyCore`, its lifetime judged at the clock read `clock`. -/
def verifyCore (token : Units) (clock : ℚ) (holder : Bool) : Outcome Claims := do
  let r ← parse token
  let signature ← signatureOf token
  verifyKidAndSignature ed o r signature holder
  let now := o.now.getD (.ofInt ⌊clock⌋)
  checkLifetime r.claims.iat r.claims.exp (o.leewaySeconds.getD (.ofInt 2)) now
  raiseIf (o.isRevoked r.claims.jti) (.swarmAuth "TOKEN_REVOKED" "Token has been revoked")
  return r.claims

/-! ## Attenuation -/

/-- `capabilityCovered`; `:` is 58, `*` 42. -/
def capabilityCovered (capability : Units) (granted : List Units) : Bool :=
  Wildcard.coveredBy 58 42 capability granted

/-- `left === right` of values without parts. -/
def strictEqual : Scalar → Scalar → Bool
  | .number a, .number b => a.denote = b.denote && a.denote.isSome
  | .null, .null => true
  | .undefined, .undefined => true
  | .bool a, .bool b => a = b
  | _, _ => false

mutual
/-- `jsonEqual`. -/
def jsonEqual : Value → Value → Bool
  | .scalar a, .scalar b => strictEqual a b
  | .str a, .str b => a = b
  | .arr left, .arr right => left.length = right.length && jsonEqualItems left right
  | .obj left, .obj right => left.length = right.length && jsonEqualMembers left right
  | _, _ => false
/-- `left.every((item, index) => jsonEqual(item, right[index]))`; `every` passes over a hole. -/
def jsonEqualItems : List Value → List Value → Bool
  | a :: left, b :: right => (a = Value.hole || jsonEqual a b.element) && jsonEqualItems left right
  | _, _ => true
/-- `Object.keys(left).every((key) => Object.hasOwn(right, key) && …)`. -/
def jsonEqualMembers : Object → Object → Bool
  | [], _ => true
  | (key, a) :: left, right =>
      (match right.lookup key with
        | some b => jsonEqual a b
        | none => false) && jsonEqualMembers left right
end

/-- `limitIsWider`; `none` is unlimited. -/
def limitIsWider (child parent : Option Double) : Bool :=
  match parent, child with
  | none, _ => false
  | some _, none => true
  | some p, some c => !isFinite c || lessThan p c

/-- The numeric limits under their names. -/
def Constraints.limits (c : Constraints) : List (String × Option Double) :=
  [("max_calls", c.maxCalls), ("max_amount_usd", c.maxAmountUsd),
    ("rate_limit_per_min", c.rateLimitPerMin)]

/-- `fail("DELEGATION_VIOLATION", message)`. -/
def delegation (message : String) : Thrown := .swarmAuth "DELEGATION_VIOLATION" message

/-- The truth value of an optional string. -/
def truthy : Option Units → Bool
  | some s => s ≠ []
  | none => false

/-- A pin of the parent that the child keeps. -/
def keepsPin (child : Object) (key : Units) (expected : Value) : Bool :=
  match child.lookup key with
  | some value => jsonEqual value expected
  | none => false

/-- `assertAttenuated`. -/
def assertAttenuated (parent child : Claims) : Outcome Unit := do
  raiseIf (truthy parent.prf) (delegation "Only one delegation hop is allowed")
  raiseIf (!truthy parent.dlg || parent.dlg ≠ some child.iss)
    (delegation "Parent token does not authorize the child to attenuate it")
  raiseIf (child.jti = parent.jti) (delegation "Parent and child token IDs must differ")
  raiseIf (truthy child.dlg) (delegation "An attenuated token cannot itself be delegated further")
  raiseIf (child.sub ≠ parent.sub) (delegation "Attenuated token retargets audience")
  raiseIf (lessThan child.iat parent.iat || lessThan parent.exp child.exp)
    (delegation "Attenuated token lifetime is outside the parent token's lifetime")
  forM child.capabilities fun capability =>
    raiseIf (!capabilityCovered capability parent.capabilities)
      (delegation "Attenuated capability exceeds the parent grant")
  raiseIf (parent.constraints.sharedBudget ≠ none ∧
      child.constraints.sharedBudget ≠ parent.constraints.sharedBudget)
    (delegation "Attenuated token drops or changes shared budget")
  forM (parent.constraints.limits.zip child.constraints.limits) fun l =>
    raiseIf (limitIsWider l.2.2 l.1.2) (delegation ("Attenuated " ++ l.1.1 ++ " widens the parent limit"))
  forM parent.constraints.allowedParams fun m =>
    raiseIf (!keepsPin child.constraints.allowedParams m.1 m.2)
      (delegation "Attenuated token drops or changes pinned parameter")

/-- `verify`; the token is judged at `clock`, its parent at `parentClock`. -/
def verify (token : Units) (clock parentClock : ℚ) : Outcome Claims := do
  let preview ← parse token
  raiseIf (truthy preview.claims.prf ∧ o.registry.isNone) (delegation
    "Delegated tokens require a key registry containing the root issuer and the delegate")
  raiseIf (o.publicKey.isSome = o.registry.isSome) (.error "Pass exactly one of publicKey or registry")
  let claims ← verifyCore ed o token clock (truthy preview.claims.prf)
  raiseIf (o.audience ≠ none ∧ o.audience ≠ some claims.sub)
    (.swarmAuth "AUDIENCE_MISMATCH" "Token audience does not match")
  if truthy claims.prf then
    let prf := claims.prf.getD []
    let parentPreview ← parse prf
    raiseIf (truthy parentPreview.claims.prf) (delegation "Only one delegation hop is allowed")
    let parent ← verifyCore ed o prf parentClock false
    assertAttenuated parent claims
    return claims
  else
    raiseIf (truthy claims.dlg)
      (delegation "A delegable token cannot be presented to a tool; attenuate it first")
    return claims

end Verification
end SwarmAuth.Node
