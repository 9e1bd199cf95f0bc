import SwarmAuth.Go.Marshal
import SwarmAuth.Lib.Base64Url
import SwarmAuth.Lib.Wildcard
import Mathlib.Algebra.Order.Floor.Ring
import Mathlib.Data.Rat.Floor

/-!
# Tokens in Go

Parsing and verification in `token.go`. Ed25519 verification is a predicate on key, data
and signature; a registry and a revocation store are the answers they give; each link's
lifetime is judged at a clock read of its own, unless the caller fixes the time.

## Main definitions

* `Constraints`, `Claims`, `parse` — the payload and its parsing.
* `Registry`, `verifyCore` — trust, and the checks on one link.
* `covered`, `wider`, `checkPins` — the comparisons of a child with its parent.
* `verify` — `Verify`, with the verified chain.
-/
namespace SwarmAuth.Go

/-! ## Claims -/

/-- `Constraints`; a limit that is `nil` is none. -/
structure Constraints where
  maxCalls : Option ℤ := none
  maxAmountUSD : Option ℚ := none
  rateLimitPerMin : Option ℤ := none
  allowedParams : Map := []
  sharedBudget : Bytes := []
  deriving DecidableEq

/-- `Claims`; an absent delegate or parent is the empty string. -/
structure Claims where
  iss : Bytes
  sub : Bytes
  jti : Bytes
  capabilities : List Bytes
  iat : ℤ
  exp : ℤ
  constraints : Constraints := {}
  delegate : Bytes := []
  parent : Bytes := []
  deriving DecidableEq

/-- `parsed`. -/
structure Parsed where
  claims : Claims
  kid : Bytes
  signature : Bytes
  input : Bytes
  deriving DecidableEq

/-! ## Parsing -/

/-- `RawURLEncoding.EncodeToString`. -/
def encodeToString (data : Bytes) : Bytes := (Base64Url.encode data).map UInt8.ofNat

/-- `decode`. -/
def decode (text : Bytes) : Outcome Bytes :=
  match Base64Url.decode (text.map UInt8.toNat) with
  | some data => if encodeToString data = text then .ok data
      else .error (malformed "Invalid base64url")
  | none => .error (malformed "Invalid base64url")

/-- The three segments of a token, none of them empty. -/
def segments (token : Bytes) : Option (Bytes × Bytes × Bytes) :=
  match token.splitOn 46 with
  | [h, p, s] => if h = [] ∨ p = [] ∨ s = [] then none else some (h, p, s)
  | _ => none

/-- The key id of a header of this format and algorithm. -/
def headerKid (header : Map) : Outcome Bytes := do
  raiseIf (header.get "alg" ≠ .str "EdDSA" ∨ header.get "typ" ≠ .str "JCT")
    (malformed "Unsupported header")
  let kidText ← orRaise (text (header.get "kid")) (malformed "Missing kid")
  match decode kidText with
  | .ok kid => if kid.length ≠ 32 then .error (malformed "Invalid kid") else .ok kid
  | .error _ => .error (malformed "Invalid kid")

/-- The capabilities of a payload. -/
def parseCapabilities (value : Value) : Outcome (List Bytes) :=
  match value with
  | .arr entries =>
      if entries = [] then .error (malformed "Invalid capabilities")
      else entries.mapM fun entry => orRaise (text entry) (malformed "Invalid capability")
  | _ => .error (malformed "Invalid capabilities")

/-- `dlg` or `prf`: empty when `nil`. -/
def parseDelegation (value : Value) : Outcome Bytes :=
  if value = .nil then .ok [] else orRaise (text value) (malformed "Invalid delegation claim")

/-- `max_calls` or `rate_limit_per_min`. -/
def parseCount (value : Value) : Outcome (Option ℤ) :=
  if value = .nil then .ok none
  else
    match integer value with
    | some number => if number < 1 then .error (malformed "Invalid count") else .ok (some number)
    | none => .error (malformed "Invalid count")

/-- `max_amount_usd`. -/
def parseAmount (value : Value) : Outcome (Option ℚ) :=
  if value = .nil then .ok none
  else
    match rational value with
    | some amount => if amount < 0 then .error (malformed "Invalid amount") else .ok (some amount)
    | none => .error (malformed "Invalid amount")

/-- `allowed_params`: empty when absent. -/
def parsePins (value : Option Value) : Outcome Map :=
  match value with
  | none => .ok []
  | some (.obj params) =>
      if validJSON (.obj params) then .ok params else .error (malformed "Invalid parameter pins")
  | some _ => .error (malformed "Invalid parameter pins")

/-- Three letters `A` to `Z`. -/
def validCurrency (value : Value) : Bool :=
  match text value with
  | some currency => currency.length = 3 && currency.all fun c => 65 ≤ c.toNat && c.toNat ≤ 90
  | none => false

/-- An integral amount in the safe range. -/
def validMinor (value : Value) : Bool :=
  match rational value with
  | some minor => 0 ≤ minor && minor.den = 1 && minor ≤ maxSafe
  | none => false

/-- `shared_budget`, over the pins: empty when `nil`. -/
def parseBudget (pins : Map) (value : Value) : Outcome Bytes :=
  if value = .nil then .ok []
  else
    match text value with
    | some budget =>
        if pins.get "budget_id" = .str budget ∧ validMinor (pins.get "amount_minor") = true ∧
            validCurrency (pins.get "currency") = true then .ok budget
        else .error (malformed "Invalid shared budget pins")
    | none => .error (malformed "Invalid shared budget pins")

/-- `constraints`: empty when absent. -/
def limitsMap (value : Option Value) : Outcome Map :=
  match value with
  | none => .ok []
  | some (.obj limits) => .ok limits
  | some _ => .error (malformed "Invalid constraints")

/-- The constraints of a payload. -/
def parseConstraints (value : Option Value) : Outcome Constraints := do
  let limits ← limitsMap value
  raiseIf (fields limits ["max_calls", "max_amount_usd", "rate_limit_per_min", "allowed_params",
    "shared_budget"] = false) (malformed "Unknown constraint")
  let maxCalls ← parseCount (Map.get limits "max_calls")
  let rateLimitPerMin ← parseCount (Map.get limits "rate_limit_per_min")
  let maxAmountUSD ← parseAmount (Map.get limits "max_amount_usd")
  let allowedParams ← parsePins (Map.get? limits "allowed_params")
  let sharedBudget ← parseBudget allowedParams (Map.get limits "shared_budget")
  return ⟨maxCalls, maxAmountUSD, rateLimitPerMin, allowedParams, sharedBudget⟩

/-- The claims of a payload. -/
def parseClaims (payload : Map) : Outcome Claims := do
  raiseIf (fields payload ["iss", "sub", "capabilities", "constraints", "iat", "exp", "jti", "dlg",
    "prf"] = false) (malformed "Unknown claim")
  let iss ← orRaise (text (payload.get "iss")) (malformed "Invalid issuer")
  let sub ← orRaise (text (payload.get "sub")) (malformed "Invalid audience")
  let jti ← orRaise (text (payload.get "jti")) (malformed "Invalid jti")
  let iat ← orRaise (integer (payload.get "iat")) (malformed "Invalid iat")
  let exp ← orRaise (integer (payload.get "exp")) (malformed "Invalid exp")
  raiseIf (exp ≤ iat) (malformed "Invalid exp")
  let capabilities ← parseCapabilities (payload.get "capabilities")
  let delegate ← parseDelegation (payload.get "dlg")
  let parent ← parseDelegation (payload.get "prf")
  let constraints ← parseConstraints (payload.get? "constraints")
  return ⟨iss, sub, jti, capabilities, iat, exp, constraints, delegate, parent⟩

/-- `parse`. -/
def parse (token : Bytes) : Outcome Parsed := do
  raiseIf (token.length > 65536) (malformed "Token exceeds 64 KiB limit")
  let (h, p, s) ← orRaise (segments token) (malformed "Expected three segments")
  let headerData ← decode h
  let payloadData ← decode p
  let signature ← decode s
  let header ← object headerData
  let kid ← headerKid header
  let payload ← object payloadData
  let claims ← parseClaims payload
  return ⟨claims, kid, signature, h ++ [46] ++ p⟩

/-! ## Trust -/

/-- `Registry`: the trusted keys of an issuer, none without an entry. -/
structure Registry where
  roots : Bytes → List Bytes
  holders : Bytes → List Bytes

/-- `trusted`. -/
def Registry.trusted (r : Registry) (issuer kid : Bytes) (holder : Bool) : Outcome Unit := do
  let keys := if holder then r.holders issuer else r.roots issuer
  raiseIf (keys = []) (.failure "UNKNOWN_ISSUER" "Unknown issuer")
  raiseIf (kid ∉ keys) (.failure "INVALID_SIGNATURE" "kid is not trusted for issuer")

/-- Ed25519 verification of a signature: key, data, signature. -/
abbrev SignatureCheck := Bytes → Bytes → Bytes → Bool

/-- `VerifyOptions`; an empty audience is none, and without a time the clock is read. -/
structure VerifyOptions where
  publicKey : Option Bytes := none
  registry : Option Registry := none
  audience : Bytes := []
  leewaySeconds : Option ℤ := none
  now : Option ℚ := none
  revocations : Option (Bytes → Outcome Bool) := none

/-- `Verified`. -/
structure Verified where
  claims : Claims
  chain : List Claims
  deriving DecidableEq

/-- `MaxTTLSeconds`. -/
def maxTTLSeconds : ℤ := 30

section Verification
variable (ed : SignatureCheck) (o : VerifyOptions)

/-- The key a link must be signed under. -/
def trustedKey (p : Parsed) (holder : Bool) : Outcome Unit :=
  match o.registry with
  | some registry => registry.trusted p.claims.iss p.kid holder
  | none => do
      raiseIf (holder = true) (.failure "DELEGATION_VIOLATION" "Delegation requires a registry")
      raiseIf (o.publicKey ≠ some p.kid)
        (.failure "INVALID_SIGNATURE" "kid does not match trusted key")

/-- The revocation store's answer on a link. -/
def checkRevoked (jti : Bytes) : Outcome Unit :=
  match o.revocations with
  | some isRevoked => do
      let revoked ← isRevoked jti
      raiseIf (revoked = true) (.failure "TOKEN_REVOKED" "Token revoked")
  | none => .ok ()

/-- `verifyCore`, its lifetime judged at the clock read `clock`. -/
def verifyCore (p : Parsed) (clock : ℚ) (holder : Bool) : Outcome Unit := do
  raiseIf (o.registry.isNone = o.publicKey.isNone)
    (.new "Pass exactly one of PublicKey or Registry")
  trustedKey o p holder
  raiseIf (!ed p.kid p.input p.signature)
    (.failure "INVALID_SIGNATURE" "Signature verification failed")
  raiseIf (p.claims.exp - p.claims.iat > maxTTLSeconds)
    (.failure "TOKEN_EXPIRED" "Token TTL exceeds 30 seconds")
  let leeway := o.leewaySeconds.getD 2
  raiseIf (leeway < 0 ∨ leeway > 2) (.new "Leeway must be 0..2")
  let seconds := ⌊o.now.getD clock⌋
  raiseIf (seconds < p.claims.iat - leeway)
    (.failure "TOKEN_NOT_YET_VALID" "Token is not yet valid")
  raiseIf (seconds > p.claims.exp + leeway) (.failure "TOKEN_EXPIRED" "Token expired")
  checkRevoked o p.claims.jti

/-! ## Attenuation -/

/-- `Covered`; `:` is 58, `*` 42. -/
def covered (capability : Bytes) (granted : List Bytes) : Bool :=
  Wildcard.coveredBy 58 42 capability granted

/-- `wider`. -/
def wider (child parent : Option ℤ) : Bool :=
  match parent, child with
  | none, _ => false
  | some _, none => true
  | some p, some c => c > p

/-- The arguments of a call as a `map[string]any`: `nil`, or what `json.Marshal` makes of
it, which fails on what is not JSON. -/
inductive Params where
  | nil
  | marshalled (encoded : Option Bytes)

/-- The arguments as they are encoded and decoded again. -/
def Params.actual : Params → Outcome Map
  | .nil => .ok []
  | .marshalled (some encoded) => object encoded
  | .marshalled none => .error (.failure "CONSTRAINT_VIOLATION" "Arguments must be JSON")

/-- `checkPins`. -/
def checkPins (pins : Map) (params : Params) : Outcome Unit := do
  let actual ← params.actual
  forM pins fun m =>
    match Map.get? actual m.1 with
    | some value => raiseIf (!equalJSON m.2 value)
        (.failure "CONSTRAINT_VIOLATION" "Pinned parameter mismatch")
    | none => .error (.failure "CONSTRAINT_VIOLATION" "Pinned parameter mismatch")

/-- A decoded map as arguments. -/
def Params.ofMap (m : Map) : Params := .marshalled (some (marshal (.obj m)))

/-- A child `c` that widens or changes the authority of its parent `a`. -/
def bad (a c : Claims) : Bool :=
  a.delegate = [] || a.delegate ≠ c.iss || c.delegate ≠ [] || a.jti = c.jti || a.sub ≠ c.sub ||
    c.iat < a.iat || c.exp > a.exp ||
    (a.constraints.sharedBudget ≠ [] && c.constraints.sharedBudget ≠ a.constraints.sharedBudget) ||
    (c.capabilities.any fun capability => !covered capability a.capabilities) ||
    wider c.constraints.maxCalls a.constraints.maxCalls ||
    wider c.constraints.rateLimitPerMin a.constraints.rateLimitPerMin ||
    (match a.constraints.maxAmountUSD, c.constraints.maxAmountUSD with
      | none, _ => false
      | some _, none => true
      | some p, some q => q > p) ||
    checkPins a.constraints.allowedParams (.ofMap c.constraints.allowedParams) ≠ .ok ()

/-- `Verify`; the token is judged at `clock`, its parent at `parentClock`. -/
def verify (token : Bytes) (clock parentClock : ℚ) : Outcome Verified := do
  let p ← parse token
  verifyCore ed o p clock (p.claims.parent ≠ [])
  let c := p.claims
  raiseIf (o.audience ≠ [] ∧ o.audience ≠ c.sub) (.failure "AUDIENCE_MISMATCH" "Wrong audience")
  if c.parent ≠ [] then
    let parent ← parse c.parent
    let a := parent.claims
    raiseIf (a.parent ≠ [])
      (.failure "DELEGATION_VIOLATION" "Only one delegation hop is allowed")
    verifyCore ed o parent parentClock false
    raiseIf (bad a c) (.failure "DELEGATION_VIOLATION" "Child widens or changes parent authority")
    return ⟨c, [a, c]⟩
  else
    raiseIf (c.delegate ≠ []) (.failure "DELEGATION_VIOLATION" "Delegable roots cannot execute")
    return ⟨c, [c]⟩

end Verification

/-! ## What parsing establishes -/

/-- Limits as `parse` admits them. -/
structure Constraints.Positive (c : Constraints) : Prop where
  maxCalls : ∀ n, c.maxCalls = some n → 1 ≤ n
  maxAmountUSD : ∀ m, c.maxAmountUSD = some m → 0 ≤ m
  rateLimitPerMin : ∀ n, c.rateLimitPerMin = some n → 1 ≤ n

theorem parseCount_pos {value : Value} {limit : Option ℤ} (h : parseCount value = .ok limit) {n : ℤ}
    (hn : limit = some n) : 1 ≤ n := by
  rw [parseCount] at h
  split_ifs at h
  · rw [← Except.ok.inj h] at hn
    exact nomatch hn
  · split at h
    · split_ifs at h with hlt
      rw [← Except.ok.inj h, Option.some.injEq] at hn
      omega
    · exact nomatch h

theorem parseAmount_nonneg {value : Value} {limit : Option ℚ} (h : parseAmount value = .ok limit)
    {m : ℚ} (hm : limit = some m) : 0 ≤ m := by
  rw [parseAmount] at h
  split_ifs at h
  · rw [← Except.ok.inj h] at hm
    exact nomatch hm
  · split at h
    · split_ifs at h with hlt
      rw [← Except.ok.inj h, Option.some.injEq] at hm
      exact hm ▸ not_lt.mp hlt
    · exact nomatch h

/-- The pieces of a parsed token. -/
theorem parse_ok {token : Bytes} {r : Parsed} (h : parse token = .ok r) :
    ∃ headerPart payloadPart signaturePart data payload,
      segments token = some (headerPart, payloadPart, signaturePart) ∧
        decode signaturePart = .ok r.signature ∧ r.input = headerPart ++ [46] ++ payloadPart ∧
        object data = .ok payload ∧ parseClaims payload = .ok r.claims := by
  obtain ⟨-, h⟩ := raiseIf_bind_eq_ok.mp h
  obtain ⟨⟨headerPart, payloadPart, signaturePart⟩, hseg, h⟩ := bind_eq_ok.mp h
  obtain ⟨headerData, -, h⟩ := bind_eq_ok.mp h
  obtain ⟨data, -, h⟩ := bind_eq_ok.mp h
  obtain ⟨signature, hsignature, h⟩ := bind_eq_ok.mp h
  obtain ⟨header, -, h⟩ := bind_eq_ok.mp h
  obtain ⟨kid, -, h⟩ := bind_eq_ok.mp h
  obtain ⟨payload, hpayload, h⟩ := bind_eq_ok.mp h
  obtain ⟨claims, hclaims, h⟩ := bind_eq_ok.mp h
  rw [← pure_eq_ok.mp h]
  exact ⟨_, _, _, data, payload, orRaise_eq_ok.mp hseg, hsignature, rfl, hpayload, hclaims⟩

/-- The constraints of parsed claims. -/
theorem parseClaims_ok {payload : Map} {c : Claims} (h : parseClaims payload = .ok c) :
    parseConstraints (payload.get? "constraints") = .ok c.constraints := by
  obtain ⟨-, h⟩ := raiseIf_bind_eq_ok.mp h
  obtain ⟨iss, -, h⟩ := bind_eq_ok.mp h
  obtain ⟨sub, -, h⟩ := bind_eq_ok.mp h
  obtain ⟨jti, -, h⟩ := bind_eq_ok.mp h
  obtain ⟨iat, -, h⟩ := bind_eq_ok.mp h
  obtain ⟨exp, -, h⟩ := bind_eq_ok.mp h
  obtain ⟨-, h⟩ := raiseIf_bind_eq_ok.mp h
  obtain ⟨capabilities, -, h⟩ := bind_eq_ok.mp h
  obtain ⟨delegate, -, h⟩ := bind_eq_ok.mp h
  obtain ⟨parent, -, h⟩ := bind_eq_ok.mp h
  obtain ⟨constraints, hcon, h⟩ := bind_eq_ok.mp h
  rw [← pure_eq_ok.mp h]
  exact hcon

/-- The fields of parsed constraints. -/
theorem parseConstraints_ok {value : Option Value} {c : Constraints}
    (h : parseConstraints value = .ok c) :
    ∃ limits, limitsMap value = .ok limits ∧
      parseCount (Map.get limits "max_calls") = .ok c.maxCalls ∧
      parseCount (Map.get limits "rate_limit_per_min") = .ok c.rateLimitPerMin ∧
      parseAmount (Map.get limits "max_amount_usd") = .ok c.maxAmountUSD ∧
      parsePins (Map.get? limits "allowed_params") = .ok c.allowedParams := by
  obtain ⟨limits, hlimits, h⟩ := bind_eq_ok.mp h
  obtain ⟨-, h⟩ := raiseIf_bind_eq_ok.mp h
  obtain ⟨maxCalls, hcalls, h⟩ := bind_eq_ok.mp h
  obtain ⟨rate, hrate, h⟩ := bind_eq_ok.mp h
  obtain ⟨amount, hamount, h⟩ := bind_eq_ok.mp h
  obtain ⟨pins, hpins, h⟩ := bind_eq_ok.mp h
  obtain ⟨budget, -, h⟩ := bind_eq_ok.mp h
  rw [← pure_eq_ok.mp h]
  exact ⟨limits, hlimits, hcalls, hrate, hamount, hpins⟩

/-- The limits of a parsed token are positive, its amount at least zero. -/
theorem parse_positive {token : Bytes} {p : Parsed} (h : parse token = .ok p) :
    p.claims.constraints.Positive := by
  obtain ⟨_, _, _, _, _, -, -, -, -, hclaims⟩ := parse_ok h
  obtain ⟨limits, -, hcalls, hrate, hamount, -⟩ := parseConstraints_ok (parseClaims_ok hclaims)
  exact ⟨fun n => parseCount_pos hcalls, fun m => parseAmount_nonneg hamount,
    fun n => parseCount_pos hrate⟩

theorem decoded_nil : Decoded (.obj []) := ⟨rfl, rfl, rfl, by decide⟩

/-- The pins of a parsed token are a decoded map. -/
theorem parse_decoded {token : Bytes} {p : Parsed} (h : parse token = .ok p) :
    Decoded (.obj p.claims.constraints.allowedParams) := by
  obtain ⟨_, _, _, _, payload, -, -, -, hobject, hclaims⟩ := parse_ok h
  obtain ⟨limits, hlimits, -, -, -, hpins⟩ := parseConstraints_ok (parseClaims_ok hclaims)
  have hpayload := object_decoded hobject
  have hdecoded : Decoded (.obj limits) := by
    unfold limitsMap at hlimits
    split at hlimits
    · rw [← Except.ok.inj hlimits]
      exact decoded_nil
    · rw [← Except.ok.inj hlimits]
      exact hpayload.member ‹_›
    · exact nomatch hlimits
  unfold parsePins at hpins
  split at hpins
  · rw [← Except.ok.inj hpins]
    exact decoded_nil
  · split_ifs at hpins
    rw [← Except.ok.inj hpins]
    exact hdecoded.member ‹_›
  · exact nomatch hpins

end SwarmAuth.Go
