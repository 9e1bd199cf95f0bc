import SwarmAuth.Python.Claims
import SwarmAuth.Python.Errors
import SwarmAuth.Lib.Base64Url
import SwarmAuth.Lib.Nearest

/-!
# Tokens

A token is `base64url(header) . base64url(payload) . base64url(signature)`. This module
has its creation and its parsing, without verification. The signer's signature is a
function of the key pair; clock reads and random octets are arguments.

## Main definitions

* `b64urlEncode`, `b64urlDecode`, `KeyPair` — from `crypto.py`.
* `sign`, `parse`, `issue` — `_sign`, `CapabilityToken.parse` and `CapabilityToken.issue`.
* `parse_sign` — what is signed parses to the claims signed.
* `sign_parse_round_trip` — and signs to the same token again.
-/
namespace SwarmAuth.Python

/-! ## Primitives -/

/-- `b64url_encode`. -/
def b64urlEncode (data : Bytes) : Units := (Base64Url.encode data).map UInt16.ofNat

/-- `b64url_decode`; `none` is its `ValueError`. -/
def b64urlDecode (data : Units) : Option Bytes :=
  if data.length % 4 = 1 then none
  else match Base64Url.decode (data.map UInt16.toNat) with
    | some decoded => if b64urlEncode decoded = data then some decoded else none
    | none => none

/-- An Ed25519 identity: its raw public key, and its signatures. -/
structure KeyPair where
  publicBytes : Bytes
  sign : Bytes → Bytes
  length_publicBytes : publicBytes.length = 32

/-- `public_key_id`. -/
def KeyPair.publicKeyId (k : KeyPair) : Units := b64urlEncode k.publicBytes

/-- The 16 octets of `os.urandom(16)`. -/
abbrev Entropy := {bs : Bytes // bs.length = 16}

/-- `generate_jti`. -/
def generateJti (random : Entropy) : Units := b64urlEncode random.1

/-- `int(time.time())`: towards zero. -/
def intTime (t : ℚ) : ℤ := if 0 ≤ t then ⌊t⌋ else ⌈t⌉

/-- `MAX_TTL_SECONDS`. -/
def maxTtlSeconds : ℤ := 30

/-- `MAX_LEEWAY_SECONDS`. -/
def maxLeewaySeconds : ℤ := 2

/-- `RETENTION_AFTER_EXP_SECONDS`: integer-second verification accepts the entire
`exp + leeway` second. -/
def retentionAfterExpSeconds : ℤ := maxLeewaySeconds + 1

/-- `math.ceil(exp + RETENTION_AFTER_EXP_SECONDS - now)`: the sum becomes a float. None is the
`OverflowError`. -/
def secondsLeft (exp : ℤ) (now : ℚ) : Option ℤ := do
  let until' ← rounded (exp + retentionAfterExpSeconds : ℤ)
  let left ← rounded (until' - now)
  return ⌈left⌉

/-! ## Signing -/

/-- `_require_ttl`, with the checked value. -/
def requireTtl : Scalar → Outcome ℤ
  | .int n =>
      if n ≤ 0 ∨ maxTtlSeconds < n then
        .error (.valueError [.text "ttl_seconds must be an integer from 1 to ", .int maxTtlSeconds])
      else .ok n
  | _ => .error (.valueError [.text "ttl_seconds must be an integer from 1 to ", .int maxTtlSeconds])

/-- `_canonical_json`. -/
def canonicalJson (obj : Dict) : Outcome Bytes := orRaise (dumps (.obj obj)) (.valueError [.cause])

/-- The header of a signed token. -/
def headerDict (kid : Units) : Dict :=
  [(lit "alg", .str "EdDSA"), (lit "typ", .str "JCT"), (lit "kid", .str kid)]

/-- `f"{header_b64}.{payload_b64}"`. -/
def signingText (headerB64 payloadB64 : Units) : Units := headerB64 ++ [46] ++ payloadB64

/-- `.encode("ascii")` of text in the base64url alphabet. -/
def encodeAscii (s : Units) : Bytes := asciiBytes (s.map UInt16.toNat)

/-- `_sign`. -/
def sign (issuerKeypair : KeyPair) (claims : CapabilityClaims) : Outcome Units := do
  let header ← canonicalJson (headerDict issuerKeypair.publicKeyId)
  let payload ← canonicalJson (claimsWireDict claims.toClaimFields)
  let input := signingText (b64urlEncode header) (b64urlEncode payload)
  return input ++ [46] ++ b64urlEncode (issuerKeypair.sign (encodeAscii input))

/-- What `CapabilityToken.issue` is asked for. -/
structure IssueRequest where
  iss : Units
  sub : Units
  capabilities : List Units
  constraints : Option Constraints := none
  ttlSeconds : Scalar := .int 10
  dlg : Option Units := none

/-- `CapabilityToken.issue`, at a clock read and with random octets. -/
def issue (issuerKeypair : KeyPair) (r : IssueRequest) (time : ℚ) (random : Entropy) :
    Outcome Units := do
  let ttl ← requireTtl r.ttlSeconds
  let now := intTime time
  let claims ← orRaise (CapabilityClaims.make? {
    iss := r.iss, sub := r.sub, capabilities := r.capabilities,
    constraints := r.constraints.getD .default, iat := now, exp := now + ttl,
    jti := generateJti random, dlg := r.dlg }) (.valueError [.cause])
  sign issuerKeypair claims

/-! ## Parsing -/

/-- A parsed token: header, claims, and the octets the signature is over. -/
structure Parsed where
  header : Dict
  claims : CapabilityClaims
  signingInput : Bytes
  deriving DecidableEq

/-- `Malformed` with the message for undecodable segments. -/
def malformedSegments : PyError :=
  .of .malformedToken [.text "Token header/payload is not valid base64url JSON"]

/-- The header is an object of this format and algorithm. -/
def supportedHeader : Value → Option Dict
  | .obj header =>
      if Dict.get? header "typ" = some (.str "JCT") ∧ Dict.get? header "alg" = some (.str "EdDSA") then
        some header
      else none
  | _ => none

/-- The claims of a payload that is an object with a `jti`. -/
def payloadClaims : Value → Option CapabilityClaims
  | .obj payload => if Dict.has payload "jti" then modelValidate payload else none
  | _ => none

/-- `CapabilityToken.parse`. -/
def parse (token : Units) : Outcome Parsed :=
  match token.splitOn 46 with
  | [headerB64, payloadB64, sigB64] => do
      let header ← orRaise ((b64urlDecode headerB64).bind loads) malformedSegments
      let payload ← orRaise ((b64urlDecode payloadB64).bind loads) malformedSegments
      let _ ← orRaise (b64urlDecode sigB64) malformedSegments
      let headerDict ← orRaise (supportedHeader header)
        (.of .malformedToken [.text "Unsupported token header: ", .repr header])
      let claims ← orRaise (payloadClaims payload)
        (.of .malformedToken [.text "Invalid claims schema: ", .cause])
      return ⟨headerDict, claims, encodeAscii (signingText headerB64 payloadB64)⟩
  | parts => .error (.of .malformedToken
      [.text "Expected 3 dot-separated parts, got ", .int parts.length])

/-- `b64url_decode(token.split(".")[2])`, empty when there is no such part. -/
def signatureOf (token : Units) : Bytes := ((token.splitOn 46)[2]?.bind b64urlDecode).getD []

/-! ## What is signed parses -/

theorem toNat_ofNat_base64 {data : Bytes} :
    (b64urlEncode data).map UInt16.toNat = Base64Url.encode data := by
  rw [b64urlEncode, List.map_map]
  refine (List.map_congr_left fun c hc => ?_).trans (List.map_id _)
  obtain ⟨n, hn⟩ := Base64Url.charSextet_of_mem_encode hc
  have := (Base64Url.charSextet_ascii hn).1
  simp
  omega

theorem b64urlDecode_encode (data : Bytes) : b64urlDecode (b64urlEncode data) = some data := by
  have hlen : (b64urlEncode data).length % 4 ≠ 1 := by
    rw [b64urlEncode, List.length_map]
    exact Base64Url.length_encode_mod data
  rw [b64urlDecode, if_neg hlen, toNat_ofNat_base64, Base64Url.decode_encode]
  simp

theorem dot_not_mem_b64urlEncode (data : Bytes) : (46 : UInt16) ∉ b64urlEncode data := by
  intro h
  have hmem : (46 : UInt16).toNat ∈ (b64urlEncode data).map UInt16.toNat :=
    List.mem_map.mpr ⟨_, h, rfl⟩
  rw [toNat_ofNat_base64] at hmem
  obtain ⟨n, hn⟩ := Base64Url.charSextet_of_mem_encode hmem
  exact (Base64Url.charSextet_ascii hn).2 rfl

theorem splitOn_token (h p s : Bytes) :
    (signingText (b64urlEncode h) (b64urlEncode p) ++ [46] ++ b64urlEncode s).splitOn 46 =
      [b64urlEncode h, b64urlEncode p, b64urlEncode s] := by
  have hdot : ∀ l ∈ [b64urlEncode h, b64urlEncode p, b64urlEncode s], (46 : UInt16) ∉ l := by
    intro l hl
    simp only [List.mem_cons, List.not_mem_nil, or_false] at hl
    rcases hl with rfl | rfl | rfl <;> exact dot_not_mem_b64urlEncode _
  have hsplit := List.splitOn_intercalate (46 : UInt16) hdot (by simp)
  simpa [signingText, List.intercalate, List.intersperse] using hsplit

theorem writable_int {n : ℤ} (h : |n| ≤ maxSafe) : writable (.int n) = true := by
  have hn : n.natAbs < 10 ^ 16 := by
    rw [abs_le, maxSafe] at h
    omega
  have := natText_length_le (by norm_num) hn
  simp only [writable, decide_eq_true_eq]
  omega

theorem writable_of_value {d : Double} (h : d.value?.isSome = true) : writable (.float d) = true := by
  cases d <;> simp_all [writable, Double.value?]

theorem writable_of_validScalar {s : Scalar} (h : validScalar s = true) : writable s = true := by
  cases s with
  | int n => exact writable_int (by simpa [validScalar] using h)
  | float d =>
      refine writable_of_value ?_
      cases hd : d.value? <;> simp_all [validScalar]
  | _ => rfl

theorem orNone_allScalars {α : Type} {p : Scalar → Bool} (hnone : p .none = true) {f : α → Value}
    {o : Option α} (h : ∀ a, o = some a → (f a).allScalars p = true) :
    (orNone f o).allScalars p = true := by
  cases o with
  | none => exact hnone
  | some a => exact h a rfl

theorem allScalars_constraints (c : Constraints) :
    (Json.Tree.obj (constraintsWireDict c.toConstraintFields) : Value).allScalars writable = true := by
  have hv := c.valid
  simp only [ConstraintFields.valid, Bool.and_eq_true, Option.all_eq_true, List.all_eq_true] at hv
  obtain ⟨⟨⟨⟨⟨hcalls, hamount⟩, hrate⟩, hparams⟩, -⟩, -⟩ := hv
  have hint : ∀ o : Option ℤ, (∀ n, o = some n → positiveSafe n = true) →
      (orNone (fun n => (.scalar (.int n) : Value)) o).allScalars writable = true := by
    intro o ho
    refine orNone_allScalars rfl fun n hn => writable_int ?_
    have := ho n hn
    simp only [positiveSafe, Bool.and_eq_true, decide_eq_true_eq] at this
    rw [abs_le]
    omega
  have hfloat : (orNone (fun d => (.scalar (.float d) : Value)) c.maxAmountUsd).allScalars writable =
      true := by
    refine orNone_allScalars rfl fun d hd => writable_of_value ?_
    have := hamount d hd
    cases hval : d.value? <;> simp_all [nonNegative]
  have hpins : (Json.Tree.obj c.allowedParams : Value).allScalars writable = true := by
    rw [Json.Tree.allScalars_obj, List.all_eq_true]
    exact fun m hm => Json.Tree.allScalars_mono (fun _ => writable_of_validScalar) (hparams m hm)
  rw [Json.Tree.allScalars_obj, constraintsWireDict, List.all_append]
  simp only [List.all_cons, List.all_nil, hint _ hcalls, hfloat, hint _ hrate, hpins]
  cases c.sharedBudget <;> rfl

theorem allScalars_claims (c : CapabilityClaims) :
    (Json.Tree.obj (claimsWireDict c.toClaimFields) : Value).allScalars writable = true := by
  have hv := c.valid
  simp only [ClaimFields.valid, Bool.and_eq_true, decide_eq_true_eq] at hv
  have hiat := writable_int hv.1.1.1.1.1.2
  have hexp := writable_int hv.1.1.1.1.2
  have hcaps : (Json.Tree.arr (c.capabilities.map .str) : Value).allScalars writable = true := by
    simp
  have hcons := allScalars_constraints c.constraints
  rw [Json.Tree.allScalars_obj, claimsWireDict, List.all_append, List.all_append]
  simp only [List.all_cons, List.all_nil, hcaps, hcons, Json.Tree.allScalars_str,
    Json.Tree.allScalars_scalar, hiat, hexp]
  cases c.dlg <;> cases c.prf <;> rfl

theorem keysNodup_claims (c : CapabilityClaims) :
    Json.Tree.keysNodup (.obj (claimsWireDict c.toClaimFields) : Value) = true := by
  have hcons : Json.Tree.keysNodup
      (.obj (constraintsWireDict c.constraints.toConstraintFields) : Value) = true := by
    rw [Json.Tree.keysNodup_obj, Bool.and_eq_true, decide_eq_true_eq]
    refine ⟨nodup_constraintsWireDict _, ?_⟩
    have hpins : Json.Tree.keysNodup (.obj c.constraints.allowedParams : Value) = true :=
      c.constraints.dictLike
    rw [constraintsWireDict, List.all_append]
    simp only [List.all_cons, List.all_nil, hpins]
    cases c.constraints.maxCalls <;> cases c.constraints.maxAmountUsd <;>
      cases c.constraints.rateLimitPerMin <;> cases c.constraints.sharedBudget <;> rfl
  rw [Json.Tree.keysNodup_obj, Bool.and_eq_true, decide_eq_true_eq]
  refine ⟨nodup_claimsWireDict _, ?_⟩
  have hcaps : Json.Tree.keysNodup (.arr (c.capabilities.map .str) : Value) = true := by simp
  rw [claimsWireDict, List.all_append, List.all_append]
  simp only [List.all_cons, List.all_nil, hcaps, hcons, Json.Tree.keysNodup_str,
    Json.Tree.keysNodup_scalar]
  cases c.dlg <;> cases c.prf <;> rfl

theorem canonicalJson_ok {d : Dict} (hw : (Json.Tree.obj d : Value).allScalars writable = true)
    (hn : Json.Tree.keysNodup (.obj d : Value) = true) :
    ∃ bs, canonicalJson d = .ok bs ∧ loads bs = some (.obj d.sorted) := by
  have hd : dumps (.obj d) =
      some (asciiBytes (Json.render scalarText ((Json.Tree.obj d : Value).canon codePoints))) := by
    rw [dumps, if_pos hw]
  refine ⟨_, by rw [canonicalJson, hd, orRaise], ?_⟩
  rw [loads_dumps hn hd, Dict.canon_obj]

/-- The header is an object of strings. -/
theorem canonicalJson_header (kid : Units) :
    ∃ bs, canonicalJson (headerDict kid) = .ok bs ∧ loads bs = some (.obj (headerDict kid).sorted) :=
  canonicalJson_ok rfl rfl

theorem nodup_headerDict (kid : Units) : ((headerDict kid).map Prod.fst).Nodup := by
  simp only [headerDict, List.map_cons, List.map_nil]
  decide

theorem supportedHeader_sorted (kid : Units) :
    supportedHeader (.obj (headerDict kid).sorted) = some (headerDict kid).sorted := by
  have hget := Dict.get?_sorted (nodup_headerDict kid)
  have htyp : Dict.get? (headerDict kid) "typ" = some (.str "JCT") := rfl
  have halg : Dict.get? (headerDict kid) "alg" = some (.str "EdDSA") := rfl
  rw [supportedHeader, if_pos]
  rw [hget, hget, htyp, halg]
  exact ⟨rfl, rfl⟩

theorem get?_kid (kid : Units) : (headerDict kid).sorted.get? "kid" = some (.str kid) := by
  rw [Dict.get?_sorted (nodup_headerDict kid)]
  rfl

theorem payloadClaims_wire (c : CapabilityClaims) :
    payloadClaims (.obj (claimsWireDict c.toClaimFields).sorted) = some c.sorted := by
  have hjti := (get?_claimsWireDict c.toClaimFields).2.2.2.2.2.2.1
  have hhas : (claimsWireDict c.toClaimFields).sorted.has "jti" = true := by
    rw [Dict.has, Dict.get?_sorted (nodup_claimsWireDict _), hjti]
    rfl
  rw [payloadClaims, if_pos hhas, modelValidate_wire]

/-- **What is signed parses** to the claims signed, under the signer's key id and with the
signer's signature over the parsed input. -/
theorem parse_sign (k : KeyPair) (c : CapabilityClaims) :
    ∃ token input, sign k c = .ok token ∧
      parse token = .ok ⟨(headerDict k.publicKeyId).sorted, c.sorted, input⟩ ∧
      signatureOf token = k.sign input := by
  obtain ⟨h, hh, hload⟩ := canonicalJson_header k.publicKeyId
  obtain ⟨p, hp, pload⟩ := canonicalJson_ok (allScalars_claims c) (keysNodup_claims c)
  refine ⟨signingText (b64urlEncode h) (b64urlEncode p) ++ [46] ++
    b64urlEncode (k.sign (encodeAscii (signingText (b64urlEncode h) (b64urlEncode p)))),
    encodeAscii (signingText (b64urlEncode h) (b64urlEncode p)), ?_, ?_, ?_⟩
  · rw [sign, hh, hp]
    rfl
  · rw [parse, splitOn_token]
    simp only [b64urlDecode_encode, Option.bind_some, hload, pload, orRaise, bind, Except.bind,
      supportedHeader_sorted, payloadClaims_wire]
    rfl
  · rw [signatureOf, splitOn_token]
    simp [b64urlDecode_encode]

/-! ## The round trip -/

/-- Equal claims: every field the same, the pinned parameters as dicts, whose members have no
order. -/
structure SameClaims (a b : CapabilityClaims) : Prop where
  fields : { a.toClaimFields with constraints := b.constraints } = b.toClaimFields
  limits : { a.constraints.toConstraintFields with
    allowedParams := b.constraints.allowedParams } = b.constraints.toConstraintFields
  params : (Json.Tree.obj a.constraints.allowedParams : Value).canon codePoints =
    (Json.Tree.obj b.constraints.allowedParams : Value).canon codePoints
  equal : jsonValueEqual (.obj a.constraints.allowedParams) (.obj b.constraints.allowedParams) = true

theorem scalarEqual_self {s : Scalar} (h : validScalar s = true) : scalarEqual s s = true := by
  cases s with
  | float d =>
      cases d with
      | finite neg mag => simp [scalarEqual, Scalar.denote, Double.denote]
      | inf neg => simp [validScalar, Double.value?] at h
      | nan => simp [validScalar, Double.value?] at h
  | none => rfl
  | bool b => simp [scalarEqual]
  | int n => simp [scalarEqual, Scalar.denote]

/-- A value of valid scalars without repeated keys equals itself. -/
theorem jsonValueEqual_self {v : Value} (hv : v.allScalars validScalar = true)
    (hk : v.keysNodup = true) : jsonValueEqual v v = true := by
  induction v using Json.Tree.ind with
  | scalar s => exact scalarEqual_self hv
  | str s => simp [jsonValueEqual]
  | arr items ih =>
      rw [Json.Tree.allScalars_arr, List.all_eq_true] at hv
      rw [Json.Tree.keysNodup_arr, List.all_eq_true] at hk
      rw [jsonValueEqual, itemsEqual_iff, List.forall₂_same]
      exact fun t ht => ih t ht (hv t ht) (hk t ht)
  | obj members ih =>
      rw [Json.Tree.allScalars_obj, List.all_eq_true] at hv
      rw [Json.Tree.keysNodup_obj, Bool.and_eq_true, decide_eq_true_eq, List.all_eq_true] at hk
      rw [jsonValueEqual_obj]
      refine ⟨fun m hm => List.mem_map_of_mem hm, fun m hm => ⟨m.2, ?_, ?_⟩⟩
      · exact Dict.get?_of_mem hk.1 hm
      · exact ih m hm (hv m hm) (hk.2 m hm)

/-- Claims are equal to what their signed form reads. -/
theorem sameClaims_sorted (c : CapabilityClaims) : SameClaims c.sorted c where
  fields := rfl
  limits := rfl
  params := by
    show (Json.Tree.obj c.constraints.allowedParams.sorted : Value).canon codePoints = _
    rw [← Dict.canon_obj, Json.Tree.canon_canon]
  equal := by
    have hv := c.constraints.valid
    simp only [ConstraintFields.valid, Bool.and_eq_true] at hv
    show jsonValueEqual (.obj c.constraints.allowedParams.sorted) _ = true
    rw [← Dict.canon_obj, jsonValueEqual_canon]
    apply jsonValueEqual_self
    · rw [Json.Tree.allScalars_obj]
      exact hv.1.1.2
    · exact c.constraints.dictLike

/-- The signed object of the claims read is that of the claims signed. -/
theorem canon_wireDict_sorted (c : CapabilityClaims) :
    (Json.Tree.obj (claimsWireDict c.sorted.toClaimFields) : Value).canon codePoints =
      (Json.Tree.obj (claimsWireDict c.toClaimFields) : Value).canon codePoints := by
  have hparams : (Json.Tree.obj c.constraints.allowedParams.sorted : Value).canon codePoints =
      (Json.Tree.obj c.constraints.allowedParams : Value).canon codePoints := by
    rw [← Dict.canon_obj, Json.Tree.canon_canon]
  have hconstraints : (Json.Tree.obj
      (constraintsWireDict c.sorted.constraints.toConstraintFields) : Value).canon codePoints =
      (Json.Tree.obj (constraintsWireDict c.constraints.toConstraintFields) : Value).canon
        codePoints := by
    rw [Json.Tree.canon_obj, Json.Tree.canon_obj]
    simp only [constraintsWireDict, List.map_append, List.map_cons, List.map_nil]
    show Json.Tree.obj (Json.Tree.sortMembers _ ([_, _, _,
      (_, (Json.Tree.obj c.constraints.allowedParams.sorted : Value).canon codePoints)] ++ _)) = _
    rw [hparams]
    rfl
  rw [Json.Tree.canon_obj, Json.Tree.canon_obj]
  simp only [claimsWireDict, List.map_append, List.map_cons, List.map_nil, hconstraints]
  rfl

/-- Claims that read the same are signed the same. -/
theorem sign_sorted (k : KeyPair) (c : CapabilityClaims) : sign k c.sorted = sign k c := by
  have hdumps : dumps (.obj (claimsWireDict c.sorted.toClaimFields)) =
      dumps (.obj (claimsWireDict c.toClaimFields)) := by
    rw [dumps, dumps, if_pos (allScalars_claims c.sorted), if_pos (allScalars_claims c),
      canon_wireDict_sorted]
  simp only [sign, canonicalJson, hdumps]

end SwarmAuth.Python
