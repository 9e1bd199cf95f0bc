import SwarmAuth.TypeScript.Token
import SwarmAuth.Node.Attenuate

/-!
# Verification in TypeScript

`parse`, `verifyCore` and `verify` of `token.ts` were written apart from those of `index.js`,
with their checks in another order. They accept the same tokens.

## Main definitions

* `parse`, `verifyCore`, `assertAttenuated`, `verify` — the source's functions.
* `CapabilityClaims.asNode`, `VerifyOptions.asNode` — the same, as Node has them.
* `parse_iff`, `verifyCore_iff`, `assertAttenuated_iff` — one function against the other.
* `verify_iff_node` — every token is accepted by both or by neither, with the same claims.
-/
namespace SwarmAuth.TypeScript

open Js
open Node (Constraints Claims SignatureCheck segments supportedHeader truthy lessThan_congr
  validFields nonEmptyString malformed stringOf delegation)

/-! ## Parsing -/

/-- `b64urlEncode`. -/
def b64urlEncode (data : Bytes) : Units := (Base64Url.encode data).map UInt16.ofNat

/-- `b64urlDecode`. -/
def b64urlDecode (data : Units) : Outcome Bytes :=
  if data.length % 4 = 1 then .error (.typeError "Invalid base64url")
  else
    match Base64Url.decode (data.map UInt16.toNat) with
    | some bytes =>
        if b64urlEncode bytes ≠ data then .error (.typeError "Non-canonical base64url") else .ok bytes
    | none => .error (.typeError "Invalid base64url")

/-- `JSON.parse(decoder.decode(b64urlDecode(part)))`; the decoder drops a byte order mark. -/
def decodeJson (part : Units) : Option Value := do
  let bytes ← (b64urlDecode part).toOption
  let text ← utf8Decode false (if [0xEF, 0xBB, 0xBF] <+: bytes then bytes.drop 3 else bytes)
  parseJson text

/-- `ParsedToken`; what is signed are the octets of the text. -/
structure ParsedToken where
  header : Object
  claims : CapabilityClaims
  signingInput : Units
  deriving DecidableEq

/-- `parse`. -/
def parse (token : Units) : Outcome ParsedToken := do
  let (headerB64, payloadB64, signature) ←
    orRaise (segments token) (malformed "Expected 3 dot-separated parts")
  let header ← orRaise (decodeJson headerB64)
    (malformed "Token header/payload is not valid base64url JSON")
  let payload ← orRaise (decodeJson payloadB64)
    (malformed "Token header/payload is not valid base64url JSON")
  raiseIf ((b64urlDecode signature).isOk = false)
    (malformed "Token header/payload is not valid base64url JSON")
  let header ← orRaise (supportedHeader header) (malformed "Unsupported token header")
  let claims ← wireJsonToClaims payload
  return ⟨header, claims, headerB64 ++ [46] ++ payloadB64⟩

/-! ## Trust -/

/-- Trusted raw public keys by agent; no entry is an empty list. -/
structure KeyRegistry where
  roots : Units → List Bytes
  holders : Units → List Bytes

/-- `keysFor` and `holderKeysFor`, by their map. -/
def KeyRegistry.get (map : Units → List Bytes) (iss : Units) : Outcome (List Bytes) := do
  raiseIf (map iss = []) (.swarmAuth "UNKNOWN_ISSUER" "No trusted key registered")
  return map iss

/-- `VerifyOptions`; a store is the answers it gives. -/
structure VerifyOptions where
  issuerPublicKey : Option Bytes := none
  keyRegistry : Option KeyRegistry := none
  isRevoked : Units → Bool := fun _ => false
  audience : Option Units := none
  leewaySeconds : Option Double := none

section Verification
variable (ed : SignatureCheck) (o : VerifyOptions)

/-- The kid of a header. -/
def kidOf (header : Object) : Outcome Bytes :=
  match header.get "kid" with
  | .str kid =>
      match b64urlDecode kid with
      | .ok raw =>
          if kid = [] ∨ raw.length ≠ 32 then .error (malformed "Invalid kid") else .ok raw
      | .error _ => .error (malformed "Invalid kid")
  | _ => .error (malformed "Invalid kid")

/-- The keys that are trusted for an agent. -/
def trustedKeys (iss : Units) (holder : Bool) : Outcome (List Bytes) :=
  match o.keyRegistry with
  | some registry => if holder then KeyRegistry.get registry.holders iss else KeyRegistry.get registry.roots iss
  | none => .ok o.issuerPublicKey.toList

/-- `verifyCore`, its lifetime judged at the clock read `clock`. -/
def verifyCore (token : Units) (clock : ℚ) (holder : Bool) : Outcome CapabilityClaims := do
  raiseIf (o.issuerPublicKey.isSome = o.keyRegistry.isSome)
    (.typeError "Pass exactly one of issuerPublicKey or keyRegistry")
  let leeway := o.leewaySeconds.getD (.ofInt 2)
  raiseIf (!isInteger leeway || lessThan leeway (.ofInt 0) || lessThan (.ofInt 2) leeway)
    (.rangeError "leewaySeconds must be 0..2")
  let r ← parse token
  let kid ← kidOf r.header
  raiseIf (holder = true ∧ o.keyRegistry.isNone)
    (.swarmAuth "DELEGATION_VIOLATION" "Delegation requires keyRegistry")
  let trusted ← trustedKeys o r.claims.iss holder
  raiseIf (kid ∉ trusted) (.swarmAuth "INVALID_SIGNATURE" "Token kid does not match a trusted key")
  let signature ← b64urlDecode ((token.splitOn 46)[2]?.getD [])
  raiseIf (!ed kid (asciiBytes (r.signingInput.map UInt16.toNat)) signature)
    (.swarmAuth "INVALID_SIGNATURE" "Ed25519 signature verification failed")
  raiseIf (lessThan (.ofInt 30) (minus r.claims.exp r.claims.iat))
    (.swarmAuth "TOKEN_EXPIRED" "Token TTL exceeds maximum")
  let now := Double.ofInt ⌊clock⌋
  raiseIf (lessThan now (minus r.claims.iat leeway))
    (.swarmAuth "TOKEN_NOT_YET_VALID" "Token not yet valid")
  raiseIf (lessThan (plus r.claims.exp leeway) now) (.swarmAuth "TOKEN_EXPIRED" "Token expired")
  raiseIf (o.isRevoked r.claims.jti) (.swarmAuth "TOKEN_REVOKED" "Token revoked")
  return r.claims

/-! ## Attenuation -/

/-- `covered`; `:` is 58, `*` 42. -/
def covered (capability : Units) (granted : List Units) : Bool :=
  Wildcard.coveredBy 58 42 capability granted

/-- `jsonEqual`, the same text as in Node. -/
def jsonEqual (a b : Value) : Bool := Node.jsonEqual a b

/-- A limit of the parent that the child widens. -/
def widened (limit requested : Option Double) : Bool :=
  limit.any fun l => requested.all fun r => !isFinite r || lessThan l r

/-- `assertAttenuated`. -/
def assertAttenuated (parent child : CapabilityClaims) : Outcome Unit := do
  raiseIf (parent.constraints.sharedBudget ≠ none ∧
      child.constraints.sharedBudget ≠ parent.constraints.sharedBudget)
    (delegation "Child drops or changes shared budget")
  raiseIf (truthy parent.prf || !truthy parent.dlg || parent.dlg ≠ some child.iss || truthy child.dlg ||
      child.jti = parent.jti || child.sub ≠ parent.sub || lessThan child.iat parent.iat ||
      lessThan parent.exp child.exp || !child.capabilities.all fun cap => covered cap parent.capabilities)
    (delegation "Invalid or widened delegation")
  raiseIf (widened parent.constraints.maxCalls child.constraints.maxCalls) (delegation "Widened maxCalls")
  raiseIf (widened parent.constraints.maxAmountUsd child.constraints.maxAmountUsd)
    (delegation "Widened maxAmountUsd")
  raiseIf (widened parent.constraints.rateLimitPerMin child.constraints.rateLimitPerMin)
    (delegation "Widened rateLimitPerMin")
  forM parent.constraints.allowedParams fun m =>
    raiseIf (!(child.constraints.allowedParams.lookup m.1).any fun value => jsonEqual value m.2)
      (delegation "Changed pin")

/-- `verify`; the token is judged at `clock`, its parent at `parentClock`. -/
def verify (token : Units) (clock parentClock : ℚ) : Outcome CapabilityClaims := do
  let preview ← parse token
  raiseIf (truthy preview.claims.prf ∧ o.keyRegistry.isNone) (delegation "Delegation requires keyRegistry")
  let claims ← verifyCore ed o token clock (truthy preview.claims.prf)
  raiseIf (o.audience ≠ none ∧ o.audience ≠ some claims.sub)
    (.swarmAuth "AUDIENCE_MISMATCH" "Audience mismatch")
  if truthy claims.prf then
    let parentPreview ← parse (claims.prf.getD [])
    raiseIf (truthy parentPreview.claims.prf) (delegation "Only one delegation hop is allowed")
    let parent ← verifyCore ed o (claims.prf.getD []) parentClock false
    assertAttenuated parent claims
    return claims
  else
    raiseIf (truthy claims.dlg) (delegation "A delegable token cannot be used directly")
    return claims

end Verification

/-! ## The same, as Node has it -/

/-- The constraints. -/
def NormalizedConstraints.asNode (c : NormalizedConstraints) : Constraints where
  allowedParams := c.allowedParams
  maxAmountUsd := c.maxAmountUsd
  maxCalls := c.maxCalls
  rateLimitPerMin := c.rateLimitPerMin
  sharedBudget := c.sharedBudget

/-- The claims. -/
def CapabilityClaims.asNode (c : CapabilityClaims) : Claims where
  iss := c.iss
  sub := c.sub
  jti := c.jti
  capabilities := c.capabilities
  iat := c.iat
  exp := c.exp
  constraints := c.constraints.asNode
  dlg := c.dlg
  prf := c.prf

/-- A parsed token. -/
def ParsedToken.asNode (r : ParsedToken) : Node.Parsed := ⟨r.header, r.claims.asNode, r.signingInput⟩

/-- The options, with the clock read. -/
def VerifyOptions.asNode (o : VerifyOptions) : Node.VerifyOptions where
  publicKey := o.issuerPublicKey
  registry := o.keyRegistry.map fun registry => ⟨registry.roots, registry.holders⟩
  audience := o.audience
  leewaySeconds := o.leewaySeconds
  isRevoked := o.isRevoked

/-- Claims of Node, as TypeScript has them. -/
def ofNode (n : Claims) : CapabilityClaims where
  iss := n.iss
  sub := n.sub
  capabilities := n.capabilities
  constraints := {
    maxCalls := n.constraints.maxCalls
    maxAmountUsd := n.constraints.maxAmountUsd
    rateLimitPerMin := n.constraints.rateLimitPerMin
    allowedParams := n.constraints.allowedParams
    sharedBudget := n.constraints.sharedBudget }
  iat := n.iat
  exp := n.exp
  jti := n.jti
  dlg := n.dlg
  prf := n.prf

theorem asNode_ofNode (n : Claims) : (ofNode n).asNode = n := rfl

theorem ofNode_asNode (c : CapabilityClaims) : ofNode c.asNode = c := rfl

theorem CapabilityClaims.asNode_inj {c c' : CapabilityClaims} : c.asNode = c'.asNode ↔ c = c' :=
  ⟨fun h => congrArg ofNode h, fun h => congrArg asNode h⟩

theorem ParsedToken.asNode_surjective (n : Node.Parsed) : ∃ r : ParsedToken, r.asNode = n :=
  ⟨⟨n.header, ofNode n.claims, n.signingInput⟩, rfl⟩

/-! ## Parsing agrees -/

theorem b64urlDecode_eq_ok {data : Units} {bytes : Bytes} :
    b64urlDecode data = .ok bytes ↔ Node.b64urlDecode data = .ok bytes := by
  rw [b64urlDecode, Node.b64urlDecode]
  split_ifs with hlength
  · simp
  · cases Base64Url.decode (data.map UInt16.toNat) with
    | none => simp
    | some decoded =>
        have hencode : b64urlEncode decoded = Node.b64urlEncode decoded := rfl
        simp only [hencode]
        by_cases hsame : Node.b64urlEncode decoded = data
        · rw [if_neg (not_not.mpr hsame), if_pos hsame]
        · rw [if_pos hsame, if_neg hsame]
          simp

theorem toOption_b64urlDecode (data : Units) :
    (b64urlDecode data).toOption = (Node.b64urlDecode data).toOption := by
  cases hnode : Node.b64urlDecode data with
  | ok bytes => rw [b64urlDecode_eq_ok.mpr hnode]
  | error e =>
      cases hts : b64urlDecode data with
      | ok bytes =>
          rw [b64urlDecode_eq_ok.mp hts] at hnode
          cases hnode
      | error e => rfl

theorem decodeJson_eq (part : Units) : decodeJson part = Node.decodePart part := by
  rw [decodeJson, Node.decodePart, toOption_b64urlDecode]
  cases Node.b64urlDecode part <;> rfl

theorem isOk_b64urlDecode (data : Units) : (b64urlDecode data).isOk = (Node.b64urlDecode data).isOk := by
  have hoption : ∀ {ε : Type} (x : Except ε Bytes), x.isOk = x.toOption.isSome := by
    intro ε x
    cases x <;> rfl
  rw [hoption, hoption, toOption_b64urlDecode]

/-- The constraints that are checked. -/
theorem constraintsOf_iff {v : Value} {c : Object} : constraintsOf v = .ok c ↔
    (v = .obj c ∨ v = .undefined ∧ c = []) := by
  cases v with
  | obj ms => simp [constraintsOf]
  | scalar w => cases w <;> simp [constraintsOf, eq_comm]
  | _ => simp [constraintsOf]

theorem validateConstraints_iff {c : Object} :
    validateConstraints c = .ok () ↔ Node.validateConstraints c = .ok () := by
  simp only [validateConstraints, Node.validateConstraints, raiseIf_bind_eq_ok, raiseIf_eq_ok]

/-- **The validators agree**, and read the same claims. -/
theorem objectToClaims_iff {p : Object} {c : CapabilityClaims} :
    objectToClaims p = .ok c ↔ Node.validateObject p = .ok () ∧ Node.readClaims p = c.asNode := by
  have hread : Node.readClaims p = c.asNode ↔ ofNode (Node.readClaims p) = c := by
    rw [← CapabilityClaims.asNode_inj, asNode_ofNode]
  have hmade : ∀ {d : Object}, d = Node.objectOr (p.get "constraints") →
      ({ iss := (stringOf (p.get "iss")).getD [], sub := (stringOf (p.get "sub")).getD [],
         jti := (stringOf (p.get "jti")).getD [], capabilities := stringsOf (p.get "capabilities"),
         iat := (Node.numberOf (p.get "iat")).getD .nan, exp := (Node.numberOf (p.get "exp")).getD .nan,
         constraints := readConstraints d, dlg := stringOf (p.get "dlg"),
         prf := stringOf (p.get "prf") } : CapabilityClaims) = ofNode (Node.readClaims p) := by
    rintro d rfl
    rfl
  rw [objectToClaims, Node.validateObject, hread]
  simp only [raiseIf_bind_eq_ok, and_assoc]
  refine and_congr_right fun _ => and_congr_right fun _ => and_congr_right fun _ => ?_
  constructor
  · intro h
    obtain ⟨d, hd, h⟩ := bind_eq_ok.mp h
    obtain ⟨_, hcheck, hreturn⟩ := bind_eq_ok.mp h
    have hvalid := validateConstraints_iff.mp hcheck
    rcases constraintsOf_iff.mp hd with hv | ⟨hv, rfl⟩
    · refine ⟨by rw [hv]; exact hvalid, ?_⟩
      rw [← hmade (congrArg Node.objectOr hv).symm]
      exact pure_eq_ok.mp hreturn
    · refine ⟨by rw [hv]; exact hvalid, ?_⟩
      rw [← hmade (congrArg Node.objectOr hv).symm]
      exact pure_eq_ok.mp hreturn
  · rintro ⟨hmatch, rfl⟩
    obtain ⟨d, hd, hvalid⟩ : ∃ d, constraintsOf (p.get "constraints") = .ok d ∧
        Node.validateConstraints d = .ok () := by
      generalize p.get "constraints" = v at hmatch
      split at hmatch
      · exact ⟨_, rfl, hmatch⟩
      · exact ⟨_, rfl, hmatch⟩
      · cases hmatch
    refine bind_eq_ok.mpr ⟨d, hd, bind_eq_ok.mpr ⟨(), validateConstraints_iff.mpr hvalid, ?_⟩⟩
    refine pure_eq_ok.mpr (hmade ?_)
    rcases constraintsOf_iff.mp hd with hv | ⟨hv, rfl⟩ <;> rw [hv] <;> rfl

theorem wireJsonToClaims_iff {v : Value} {c : CapabilityClaims} : wireJsonToClaims v = .ok c ↔
    Node.validateClaims v = .ok () ∧ Node.readClaims (Node.objectOr v) = c.asNode := by
  cases v with
  | obj p => exact objectToClaims_iff
  | _ => simp [wireJsonToClaims, Node.validateClaims]

/-- **Parsing agrees.** -/
theorem parse_iff {token : Units} {r : ParsedToken} :
    parse token = .ok r ↔ Node.parse token = .ok r.asNode := by
  rw [parse, Node.parse]
  simp only [bind_eq_ok, orRaise_eq_ok, pure_eq_ok, decodeJson_eq, isOk_b64urlDecode, wireJsonToClaims_iff,
    raiseIf_eq_ok]
  refine exists_congr fun segs => and_congr_right fun _ => exists_congr fun header =>
    and_congr_right fun _ => exists_congr fun payload => and_congr_right fun _ =>
      exists_congr fun _ => and_congr_right fun _ => exists_congr fun o => and_congr_right fun _ => ?_
  constructor
  · rintro ⟨c, ⟨hvalid, hread⟩, rfl⟩
    exact ⟨(), hvalid, by rw [hread]; rfl⟩
  · rintro ⟨_, hvalid, hsame⟩
    rw [ParsedToken.asNode, Node.Parsed.mk.injEq] at hsame
    obtain ⟨hheader, hread, hinput⟩ := hsame
    exact ⟨r.claims, ⟨hvalid, hread⟩, by rw [hheader, hinput]⟩

/-! ## One link -/

theorem kidOf_iff {header : Object} {kid : Bytes} :
    kidOf header = .ok kid ↔ Node.kidBytes header = .ok kid := by
  rw [kidOf, Node.kidBytes]
  generalize header.get "kid" = v
  cases v with
  | str s =>
      simp only [nonEmptyString, stringOf, Option.getD_some]
      cases hnode : Node.b64urlDecode s with
      | error e =>
          cases hts : b64urlDecode s with
          | error e => simp
          | ok raw =>
              rw [b64urlDecode_eq_ok.mp hts] at hnode
              cases hnode
      | ok raw =>
          rw [b64urlDecode_eq_ok.mpr hnode]
          by_cases hs : s = []
          · simp [hs]
          · by_cases hlength : raw.length = 32 <;> simp [hs, hlength]
  | _ =>
      constructor
      · intro h
        cases h
      · intro h
        cases h

/-- A clock read between finite bounds is finite. -/
theorem isFinite_of_between {low high : Double} {n : ℤ} {x y : ℚ} (hl : low.value? = some x)
    (hh : high.value? = some y) (hlow : lessThan (.ofInt n) low = false)
    (hhigh : lessThan high (.ofInt n) = false) : isFinite (.ofInt n) = true := by
  have hside : ∀ neg, Double.ofInt n ≠ .inf neg := by
    intro neg hinf
    rw [hinf] at hlow hhigh
    cases low with
    | finite m mag =>
        cases high with
        | finite m' mag' => cases neg <;> simp [lessThan, Double.denote] at hlow hhigh
        | _ => cases hh
    | _ => cases hl
  rw [Double.ofInt, Double.nearest] at hside ⊢
  split at hside
  · rfl
  · exact absurd rfl (hside _)

section Link
variable {ed : SignatureCheck} {o : VerifyOptions}

/-- A link is trusted by both, when there is one kind of trust. -/
theorem trusted_iff {r : ParsedToken} {signature : Bytes} {holder : Bool}
    (hone : o.issuerPublicKey.isSome ≠ o.keyRegistry.isSome) :
    (∃ kid, kidOf r.header = .ok kid ∧ ¬ (holder = true ∧ o.keyRegistry.isNone) ∧
      ∃ trusted, trustedKeys o r.claims.iss holder = .ok trusted ∧ kid ∈ trusted ∧
        ed kid (asciiBytes (r.signingInput.map UInt16.toNat)) signature = true) ↔
      Node.verifyKidAndSignature ed o.asNode r.asNode signature holder = .ok () := by
  simp only [Node.verifyKidAndSignature, bind_eq_ok, kidOf_iff]
  refine exists_congr fun kid => and_congr_right fun _ => ?_
  cases hregistry : o.keyRegistry with
  | some registry =>
      have hnode : o.asNode.registry = some ⟨registry.roots, registry.holders⟩ := by
        rw [VerifyOptions.asNode, hregistry]
        rfl
      simp only [hnode, trustedKeys, hregistry]
      cases holder <;>
        simp [KeyRegistry.get, Node.KeyRegistry.trustedFor, bind_eq_ok, Node.verifySignature]
      all_goals exact Iff.rfl
  | none =>
      rw [hregistry, Option.isSome_none, ne_eq, Bool.not_eq_false] at hone
      obtain ⟨key, hkey⟩ := Option.isSome_iff_exists.mp hone
      have hnode : o.asNode.registry = none := by
        rw [VerifyOptions.asNode, hregistry]
        rfl
      have hpublic : o.asNode.publicKey = some key := hkey
      simp only [hnode, hpublic, trustedKeys, hregistry, hkey, orRaise, Node.verifySignature,
        raiseIf_bind_eq_ok, Option.toList_some, Except.ok.injEq, exists_eq_left', List.mem_singleton,
        Option.isNone_none, and_true, Bool.not_eq_true']
      refine and_congr_right fun _ => ?_
      rw [bind_eq_ok]
      simp only [Except.ok.injEq, exists_eq_left', raiseIf_bind_eq_ok, raiseIf_eq_ok, ne_eq, not_not,
        Bool.not_eq_false]
      constructor
      · rintro ⟨rfl, hed⟩
        exact ⟨rfl, hed⟩
      · rintro ⟨rfl, hed⟩
        exact ⟨rfl, hed⟩

/-- The times of a token that parses are safe integers, in order. -/
theorem times_of_parse {token : Units} {r : ParsedToken} (hr : parse token = .ok r) :
    isSafeInteger r.claims.iat = true ∧ isSafeInteger r.claims.exp = true ∧
      lessThan r.claims.iat r.claims.exp = true := by
  obtain ⟨-, -, -, p, -, -, hvalid, hclaims⟩ := Node.parse_eq_ok (parse_iff.mp hr)
  simp only [Node.validateObject, raiseIf_bind_eq_ok, Bool.not_eq_true', Bool.not_eq_false] at hvalid
  obtain ⟨hfields, -⟩ := hvalid
  simp only [validFields, Bool.and_eq_true] at hfields
  obtain ⟨⟨⟨-, hiat⟩, hexp⟩, hlt⟩ := hfields
  have hnumber : ∀ {v : Value}, Node.safeInteger v = true →
      ∃ d, v = .scalar (.number d) ∧ isSafeInteger d = true := by
    intro v hv
    cases v with
    | scalar w =>
        cases w with
        | number d => exact ⟨d, rfl, hv⟩
        | _ => cases hv
    | _ => cases hv
  obtain ⟨d, hd, hdsafe⟩ := hnumber hiat
  obtain ⟨e, he, hesafe⟩ := hnumber hexp
  have hiatRead : r.claims.iat = d := by
    have hread := congrArg Claims.iat hclaims
    rwa [Node.readClaims, hd] at hread
  have hexpRead : r.claims.exp = e := by
    have hread := congrArg Claims.exp hclaims
    rwa [Node.readClaims, he] at hread
  rw [hd, he] at hlt
  rw [hiatRead, hexpRead]
  exact ⟨hdsafe, hesafe, hlt⟩

/-- A leeway that is allowed is an integer from 0 to 2. -/
theorem exists_leeway {leeway : Double}
    (h : ¬ (!isInteger leeway || lessThan leeway (.ofInt 0) || lessThan (.ofInt 2) leeway) = true) :
    ∃ n : ℤ, leeway.value? = some (n : ℚ) ∧ 0 ≤ n ∧ n ≤ 2 := by
  rw [Bool.or_eq_true, not_or, Bool.or_eq_true, not_or, Bool.not_eq_true', Bool.not_eq_false,
    Bool.not_eq_true, Bool.not_eq_true] at h
  obtain ⟨⟨hinteger, hneg⟩, hmax⟩ := h
  rw [isInteger, Option.any_eq_true] at hinteger
  obtain ⟨q, hq, hden⟩ := hinteger
  have hint : (q.num : ℚ) = q := Rat.coe_int_num_of_den_eq_one (of_decide_eq_true hden)
  have hzero : (Double.ofInt 0).value? = some ((0 : ℤ) : ℚ) := value_ofInt (by norm_num)
  have htwo : (Double.ofInt 2).value? = some ((2 : ℤ) : ℚ) := value_ofInt (by norm_num)
  rw [lessThan_value hq hzero, decide_eq_false_iff_not, ← hint, Int.cast_lt, not_lt] at hneg
  rw [lessThan_value htwo hq, decide_eq_false_iff_not, ← hint, Int.cast_lt, not_lt] at hmax
  exact ⟨q.num, by rw [hint]; exact hq, hneg, hmax⟩

/-- The checks on the lifetime of a token that parses. -/
theorem checkLifetime_iff {token : Units} {r : ParsedToken} (hr : parse token = .ok r)
    {leeway : Double} {m : ℤ} :
    Node.checkLifetime r.claims.iat r.claims.exp leeway (.ofInt m) = .ok () ↔
      ¬ (!isInteger leeway || lessThan leeway (.ofInt 0) || lessThan (.ofInt 2) leeway) = true ∧
      ¬ lessThan (.ofInt 30) (minus r.claims.exp r.claims.iat) = true ∧
      ¬ lessThan (.ofInt m) (minus r.claims.iat leeway) = true ∧
      ¬ lessThan (plus r.claims.exp leeway) (.ofInt m) = true := by
  obtain ⟨hiat, hexp, hlt⟩ := times_of_parse hr
  simp only [Node.checkLifetime, raiseIf_bind_eq_ok, raiseIf_eq_ok, hiat, hexp, hlt, Bool.not_true,
    Bool.or_false, Bool.false_eq_true, not_false_eq_true, true_and]
  constructor
  · rintro ⟨hbounds, hrest⟩
    rw [Bool.or_eq_true, not_or] at hbounds
    exact ⟨hbounds.1, hrest⟩
  · rintro ⟨hleeway, httl, hearly, hlate⟩
    refine ⟨?_, httl, hearly, hlate⟩
    rw [Bool.or_eq_true, not_or]
    refine ⟨hleeway, ?_⟩
    obtain ⟨n, hn, hpos, hmax⟩ := exists_leeway hleeway
    obtain ⟨a, ha, habs⟩ := Node.exists_int_of_isSafeInteger hiat
    obtain ⟨b, hb, hbbs⟩ := Node.exists_int_of_isSafeInteger hexp
    have hsmall : ∀ {k : ℤ}, |k| ≤ 2 ^ 55 → ∃ x, (nearestTo (k : ℚ)).value? = some x := by
      intro k hk
      obtain ⟨x, -, hx⟩ := value_nearestTo (abs_intCast_lt hk)
      exact ⟨_, hx⟩
    rw [abs_le] at habs hbbs
    obtain ⟨x, hx⟩ := hsmall (show |a - n| ≤ 2 ^ 55 by rw [abs_le]; omega)
    obtain ⟨y, hy⟩ := hsmall (show |b + n| ≤ 2 ^ 55 by rw [abs_le]; omega)
    have hlow : (minus r.claims.iat leeway).value? = some x := by
      rw [minus, ha, hn]
      simpa only [Int.cast_sub] using hx
    have hhigh : (plus r.claims.exp leeway).value? = some y := by
      rw [plus, hb, hn]
      simpa only [Int.cast_add] using hy
    have hfinite := isFinite_of_between hlow hhigh (Bool.eq_false_iff.mpr hearly) (Bool.eq_false_iff.mpr hlate)
    rw [hfinite]
    exact Bool.false_ne_true

/-- **One link is accepted by both or by neither**, when there is one kind of trust. -/
theorem verifyCore_iff {token : Units} {clock : ℚ} {holder : Bool} {c : CapabilityClaims} :
    verifyCore ed o token clock holder = .ok c ↔
      o.issuerPublicKey.isSome ≠ o.keyRegistry.isSome ∧
        Node.verifyCore ed o.asNode token clock holder = .ok c.asNode := by
  rw [verifyCore, raiseIf_bind_eq_ok]
  refine and_congr_right fun hone => ?_
  rw [Node.verifyCore]
  simp only [bind_eq_ok, pure_eq_ok, raiseIf_eq_ok, Bool.not_eq_true', Bool.not_eq_false, not_not]
  constructor
  · rintro ⟨_, hleeway, r, hr, kid, hkid, _, hholder, trusted, htrusted, _, hmem, signature, hsignature, _, hed,
      _, httl, _, hearly, _, hlate, _, hrevoked, rfl⟩
    refine ⟨r.asNode, parse_iff.mp hr, signature, b64urlDecode_eq_ok.mp hsignature, (),
      (trusted_iff hone).mp ⟨kid, hkid, hholder, trusted, htrusted, hmem, hed⟩, (), ?_, (), hrevoked, rfl⟩
    exact (checkLifetime_iff hr).mpr ⟨hleeway, httl, hearly, hlate⟩
  · rintro ⟨n, hn, signature, hsignature, _, htrusted, _, hlife, _, hrevoked, hclaims⟩
    obtain ⟨r, rfl⟩ := ParsedToken.asNode_surjective n
    have hr := parse_iff.mpr hn
    obtain ⟨kid, hkid, hholder, trusted, htrusted, hmem, hed⟩ := (trusted_iff hone).mpr htrusted
    obtain ⟨hleeway, httl, hearly, hlate⟩ := (checkLifetime_iff hr).mp hlife
    exact ⟨(), hleeway, r, hr, kid, hkid, (), hholder, trusted, htrusted, (), hmem, signature,
      b64urlDecode_eq_ok.mpr hsignature, (), hed, (), httl, (), hearly, (), hlate, (), hrevoked,
      CapabilityClaims.asNode_inj.mp hclaims⟩

end Link

/-! ## A child and its parent -/

theorem widened_eq (limit requested : Option Double) :
    widened limit requested = Node.limitIsWider requested limit := by
  cases limit <;> cases requested <;> rfl

theorem keepsPin_eq (pins : Object) (key : Units) (expected : Value) :
    Node.keepsPin pins key expected = (pins.lookup key).any fun value => jsonEqual value expected := by
  rw [Node.keepsPin]
  cases pins.lookup key <;> rfl

theorem all_covered {caps granted : List Units} : ¬ (!caps.all fun cap => covered cap granted) = true ↔
    ∀ cap ∈ caps, ¬ (!Node.capabilityCovered cap granted) = true := by
  simp only [Bool.not_eq_true', Bool.not_eq_false, List.all_eq_true]
  rfl

/-- **A child is accepted by both or by neither.** -/
theorem assertAttenuated_iff {parent child : CapabilityClaims} : assertAttenuated parent child = .ok () ↔
    Node.assertAttenuated parent.asNode child.asNode = .ok () := by
  have hnil : ∀ x ∈ ([] : List ((String × Option Double) × String × Option Double)),
      ¬ Node.limitIsWider x.2.2 x.1.2 = true := by simp
  simp only [assertAttenuated, Node.assertAttenuated, raiseIf_bind_eq_ok, forM_bind_eq_ok, forM_eq_ok,
    raiseIf_eq_ok, widened_eq, keepsPin_eq, Node.Constraints.limits, List.zip_cons_cons, List.zip_nil_right,
    List.forall_mem_cons]
  constructor
  · rintro ⟨hbudget, hnarrow, hcalls, hamount, hrate, hpins⟩
    simp only [Bool.or_eq_true, not_or, decide_eq_true_eq] at hnarrow
    obtain ⟨⟨⟨⟨⟨⟨⟨⟨hprf, hdlg⟩, hiss⟩, hchain⟩, hjti⟩, hsub⟩, hiat⟩, hexp⟩, hcaps⟩ := hnarrow
    refine ⟨hprf, ?_, hjti, hchain, hsub, ?_, all_covered.mp hcaps, hbudget, ⟨hcalls, hamount, hrate, hnil⟩,
      hpins⟩
    · rw [Bool.or_eq_true, not_or, decide_eq_true_eq]
      exact ⟨hdlg, hiss⟩
    · rw [Bool.or_eq_true, not_or]
      exact ⟨hiat, hexp⟩
  · rintro ⟨hprf, hdlg, hjti, hchain, hsub, htimes, hcaps, hbudget, ⟨hcalls, hamount, hrate, -⟩, hpins⟩
    refine ⟨hbudget, ?_, hcalls, hamount, hrate, hpins⟩
    rw [Bool.or_eq_true, not_or, decide_eq_true_eq] at hdlg
    rw [Bool.or_eq_true, not_or] at htimes
    simp only [Bool.or_eq_true, not_or, decide_eq_true_eq]
    exact ⟨⟨⟨⟨⟨⟨⟨⟨hprf, hdlg.1⟩, hdlg.2⟩, hchain⟩, hjti⟩, hsub⟩, htimes.1⟩, htimes.2⟩, all_covered.mpr hcaps⟩

/-! ## Verification -/

theorem isNone_registry (o : VerifyOptions) : o.asNode.registry.isNone = o.keyRegistry.isNone :=
  Option.isNone_map

theorem isSome_registry (o : VerifyOptions) : o.asNode.registry.isSome = o.keyRegistry.isSome :=
  Option.isSome_map

/-- What is checked of a token besides its own link. -/
theorem parent_iff {ed : SignatureCheck} {o : VerifyOptions} {parentClock : ℚ} {claims c : CapabilityClaims}
    (hone : o.issuerPublicKey.isSome ≠ o.keyRegistry.isSome) :
    (if truthy claims.prf then do
        let parentPreview ← parse (claims.prf.getD [])
        raiseIf (truthy parentPreview.claims.prf) (delegation "Only one delegation hop is allowed")
        let parent ← verifyCore ed o (claims.prf.getD []) parentClock false
        assertAttenuated parent claims
        return claims
      else do
        raiseIf (truthy claims.dlg) (delegation "A delegable token cannot be used directly")
        return claims) = .ok c ↔
      (if truthy claims.asNode.prf then do
          let prf := claims.asNode.prf.getD []
          let parentPreview ← Node.parse prf
          raiseIf (truthy parentPreview.claims.prf) (delegation "Only one delegation hop is allowed")
          let parent ← Node.verifyCore ed o.asNode prf parentClock false
          Node.assertAttenuated parent claims.asNode
          return claims.asNode
        else do
          raiseIf (truthy claims.asNode.dlg)
            (delegation "A delegable token cannot be presented to a tool; attenuate it first")
          return claims.asNode) = .ok c.asNode := by
  have hprf : claims.asNode.prf = claims.prf := rfl
  have hdlg : claims.asNode.dlg = claims.dlg := rfl
  rw [hprf, hdlg]
  split_ifs
  · simp only [bind_eq_ok, raiseIf_eq_ok, pure_eq_ok, CapabilityClaims.asNode_inj]
    constructor
    · rintro ⟨preview, hpreview, _, hroot, parent, hcore, _, haccepted, rfl⟩
      exact ⟨preview.asNode, parse_iff.mp hpreview, (), hroot, parent.asNode, (verifyCore_iff.mp hcore).2, (),
        assertAttenuated_iff.mp haccepted, rfl⟩
    · rintro ⟨n, hn, _, hroot, m, hcore, _, haccepted, rfl⟩
      obtain ⟨preview, rfl⟩ := ParsedToken.asNode_surjective n
      rw [← asNode_ofNode m] at hcore haccepted
      exact ⟨preview, parse_iff.mpr hn, (), hroot, ofNode m, verifyCore_iff.mpr ⟨hone, hcore⟩, (),
        assertAttenuated_iff.mpr haccepted, rfl⟩
  · simp only [raiseIf_bind_eq_ok, pure_eq_ok, CapabilityClaims.asNode_inj]

/-- **Every token is accepted by both or by neither**, with the same claims: the TypeScript verifier
returns what the Node verifier returns, under the same trust, audience, leeway, revocations and
clock reads. -/
theorem verify_iff_node (ed : SignatureCheck) (o : VerifyOptions) (token : Units) (clock parentClock : ℚ)
    (c : CapabilityClaims) : verify ed o token clock parentClock = .ok c ↔
      Node.verify ed o.asNode token clock parentClock = .ok c.asNode := by
  rw [verify, Node.verify]
  constructor
  · intro h
    obtain ⟨preview, hpreview, h⟩ := bind_eq_ok.mp h
    obtain ⟨hdelegated, h⟩ := raiseIf_bind_eq_ok.mp h
    obtain ⟨claims, hcore, h⟩ := bind_eq_ok.mp h
    obtain ⟨haudience, h⟩ := raiseIf_bind_eq_ok.mp h
    obtain ⟨hone, hnode⟩ := verifyCore_iff.mp hcore
    refine bind_eq_ok.mpr ⟨preview.asNode, parse_iff.mp hpreview, raiseIf_bind_eq_ok.mpr ⟨?_, ?_⟩⟩
    · rw [isNone_registry]
      exact hdelegated
    refine raiseIf_bind_eq_ok.mpr ⟨?_, bind_eq_ok.mpr ⟨claims.asNode, hnode, raiseIf_bind_eq_ok.mpr ⟨haudience,
      (parent_iff hone).mp h⟩⟩⟩
    rw [isSome_registry]
    exact hone
  · intro h
    obtain ⟨n, hn, h⟩ := bind_eq_ok.mp h
    obtain ⟨preview, rfl⟩ := ParsedToken.asNode_surjective n
    obtain ⟨hdelegated, h⟩ := raiseIf_bind_eq_ok.mp h
    obtain ⟨hone, h⟩ := raiseIf_bind_eq_ok.mp h
    obtain ⟨m, hcore, h⟩ := bind_eq_ok.mp h
    obtain ⟨haudience, h⟩ := raiseIf_bind_eq_ok.mp h
    rw [isNone_registry] at hdelegated
    rw [isSome_registry] at hone
    rw [← asNode_ofNode m] at hcore
    refine bind_eq_ok.mpr ⟨preview, parse_iff.mpr hn, raiseIf_bind_eq_ok.mpr ⟨hdelegated, ?_⟩⟩
    exact bind_eq_ok.mpr ⟨ofNode m, verifyCore_iff.mpr ⟨hone, hcore⟩, raiseIf_bind_eq_ok.mpr ⟨haudience,
      (parent_iff hone).mpr h⟩⟩

end SwarmAuth.TypeScript
