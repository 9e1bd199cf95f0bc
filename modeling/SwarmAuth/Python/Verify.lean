import SwarmAuth.Python.Token
import SwarmAuth.Python.Attenuation

/-!
# Verification

`CapabilityToken.verify` against a trust store. Ed25519 verification is a predicate on
key, data and signature; a revocation store is the answers it gives; each link's
lifetime is judged at a clock read of its own.

## Main definitions

* `KeyRegistry` — root and holder keys.
* `verifyCore`, `verify` — `_verify_core` and `CapabilityToken.verify`.
* `Sanctioned` — what the trust store sanctions, read off the specification.
* `verify_iff_sanctioned` — verification accepts exactly that.
-/
namespace SwarmAuth.Python

/-! ## Trust -/

/-- Trusted raw public keys by agent, newest first; no entry is an empty list. -/
structure KeyRegistry where
  keys : Units → List Bytes
  holders : Units → List Bytes

/-- `keys_for`. -/
def KeyRegistry.keysFor (reg : KeyRegistry) (iss : Units) : Outcome (List Bytes) := do
  raiseIf (reg.keys iss = [])
    (.of .unknownIssuer [.text "No trusted key registered for issuer '", .str iss, .text "'"])
  return reg.keys iss

/-- `holder_keys_for`. -/
def KeyRegistry.holderKeysFor (reg : KeyRegistry) (iss : Units) : Outcome (List Bytes) := do
  raiseIf (reg.holders iss = [])
    (.of .unknownIssuer [.text "No holder key registered for delegate '", .str iss, .text "'"])
  return reg.holders iss

/-- The keys that may sign for `iss`: of a delegated token its holder keys. -/
def KeyRegistry.trustedFor (reg : KeyRegistry) (iss : Units) (holder : Bool) :
    Outcome (List Bytes) := if holder then reg.holderKeysFor iss else reg.keysFor iss

/-- Ed25519 verification of a signature: key, data, signature. -/
abbrev SignatureCheck := Bytes → Bytes → Bytes → Bool

/-- The arguments of `verify` besides the token; without a store nothing is revoked. -/
structure VerifyOptions where
  issuerPublicKey : Option Bytes := none
  keyRegistry : Option KeyRegistry := none
  revoked : Units → Bool := fun _ => false
  audience : Option Units := none
  leewaySeconds : ℤ := 2

/-- The header's `kid`, a non-empty string. -/
def headerKid (header : Dict) : Option Units :=
  match header.get? "kid" with
  | some (.str kid) => if kid = [] then none else some kid
  | _ => none

/-- `_kid_bytes`. -/
def kidBytes (header : Dict) : Outcome Bytes := do
  let kid ← orRaise (headerKid header) (.of .malformedToken [.text "Token header is missing kid"])
  let raw ← orRaise (b64urlDecode kid) (.of .malformedToken [.text "Token kid is not valid base64url"])
  raiseIf (raw.length ≠ 32)
    (.of .malformedToken [.text "Token kid is not a 32-byte Ed25519 public key"])
  return raw

section Verification
variable (ed : SignatureCheck) (o : VerifyOptions)

/-- `verify_signature`. -/
def verifySignature (key data signature : Bytes) : Outcome Unit :=
  raiseIf (!ed key data signature)
    (.of .invalidSignature [.text "Ed25519 signature verification failed"])

/-- `_verify_kid_and_signature`. -/
def verifyKidAndSignature (r : Parsed) (signature : Bytes) (holder : Bool) : Outcome Unit := do
  let kid ← kidBytes r.header
  match o.keyRegistry with
  | some reg =>
      let trusted ← reg.trustedFor r.claims.iss holder
      raiseIf (kid ∉ trusted)
        (.of .invalidSignature [.text "Token kid is not a trusted key for issuer '",
          .str r.claims.iss, .text "'"])
      verifySignature ed kid r.signingInput signature
  | none =>
      raiseIf (holder = true) (.of .delegation [.text
        "Delegated tokens require key_registry containing the root issuer and the delegate"])
      let key ← orRaise o.issuerPublicKey
        (.valueError [.text "Pass exactly one of issuer_public_key or key_registry"])
      raiseIf (kid ≠ key) (.of .invalidSignature
        [.text "Token kid does not match the trusted issuer public key"])
      verifySignature ed key r.signingInput signature

/-- `_verify_core`, its lifetime judged at the clock read `time`. -/
def verifyCore (token : Units) (time : ℚ) (holder : Bool) : Outcome CapabilityClaims := do
  raiseIf (¬ (0 ≤ o.leewaySeconds ∧ o.leewaySeconds ≤ maxLeewaySeconds)) (.valueError
    [.text "leeway_seconds must be an integer from 0 to ", .int maxLeewaySeconds])
  raiseIf (o.issuerPublicKey.isNone = o.keyRegistry.isNone)
    (.valueError [.text "Pass exactly one of issuer_public_key or key_registry"])
  let r ← parse token
  verifyKidAndSignature ed o r (signatureOf token) holder
  let claims := r.claims
  raiseIf (claims.exp - claims.iat > maxTtlSeconds) (.of .tokenExpired [.text "Token TTL ",
    .int (claims.exp - claims.iat), .text "s exceeds max ", .int maxTtlSeconds, .text "s"])
  let now := intTime time
  raiseIf (now < claims.iat - o.leewaySeconds) (.of .tokenNotYetValid
    [.text "Token not valid until ", .int claims.iat, .text ", now is ", .int now])
  raiseIf (now > claims.exp + o.leewaySeconds) (.of .tokenExpired
    [.text "Token expired at ", .int claims.exp, .text ", now is ", .int now])
  raiseIf (o.revoked claims.jti) (.of .tokenRevoked
    [.text "Token '", .str claims.jti, .text "' has been revoked"])
  return claims

/-- `CapabilityToken.verify`; the token is judged at `time`, its parent at `parentTime`. -/
def verify (token : Units) (time parentTime : ℚ) : Outcome CapabilityClaims := do
  let preview ← parse token
  raiseIf (truthy preview.claims.prf ∧ o.keyRegistry.isNone) (.of .delegation [.text
    "Delegated tokens require key_registry containing the root issuer and the delegate"])
  let claims ← verifyCore ed o token time preview.claims.prf.isSome
  raiseIf (o.audience ≠ none ∧ o.audience ≠ some claims.sub) (.of .audienceMismatch
    [.text "Token audience '", .str claims.sub, .text "' does not match '",
      .str (o.audience.getD []), .text "'"])
  if truthy claims.prf then
    let prf := claims.prf.getD []
    let parentPreview ← parse prf
    raiseIf (truthy parentPreview.claims.prf)
      (.of .delegation [.text "Only one delegation hop is allowed"])
    let parent ← verifyCore ed o prf parentTime false
    assertAttenuated parent claims
    return claims
  else
    raiseIf (truthy claims.dlg) (.of .delegation
      [.text "A delegable token cannot be presented to a tool; attenuate it first"])
    return claims

end Verification

/-! ## What the specification sanctions -/

/-- The header's key id is this raw 32-byte public key. -/
def NamesKey (header : Dict) (key : Bytes) : Prop :=
  key.length = 32 ∧ header.get? "kid" = some (.str (b64urlEncode key))

/-- The key the header names is among the trusted ones, and the signature verifies
under it. -/
def SignedByOneOf (ed : SignatureCheck) (trusted : List Bytes) (token : Units) (r : Parsed) : Prop :=
  ∃ key ∈ trusted, NamesKey r.header key ∧ ed key r.signingInput (signatureOf token) = true

/-- A link's lifetime is at most thirty seconds, holds at `now`, and it is not revoked. -/
structure Live (o : VerifyOptions) (now : ℤ) (c : CapabilityClaims) : Prop where
  ttl_pos : 0 < c.exp - c.iat
  ttl_le : c.exp - c.iat ≤ 30
  started : c.iat - o.leewaySeconds ≤ now
  unexpired : now ≤ c.exp + o.leewaySeconds
  unrevoked : o.revoked c.jti = false

/-- A root token: no parent, not for delegation, signed under a root key of its issuer. -/
structure SanctionedRoot (ed : SignatureCheck) (reg : KeyRegistry) (token : Units) (r : Parsed) :
    Prop where
  prf : r.claims.prf = none
  dlg : r.claims.dlg = none
  signed : SignedByOneOf ed (reg.keys r.claims.iss) token r

/-- A child token: not for delegation, signed under a holder key of its issuer, its parent
a root token signed under a root key whose grant it narrows. -/
structure SanctionedChild (ed : SignatureCheck) (reg : KeyRegistry) (o : VerifyOptions) (now : ℤ)
    (token : Units) (r : Parsed) (prf : Units) (p : Parsed) : Prop where
  prf_eq : r.claims.prf = some prf
  dlg : r.claims.dlg = none
  signed : SignedByOneOf ed (reg.holders r.claims.iss) token r
  parsed : parse prf = .ok p
  parent_prf : p.claims.prf = none
  parent_signed : SignedByOneOf ed (reg.keys p.claims.iss) prf p
  parent_live : Live o now p.claims
  attenuated : Attenuated p.claims r.claims

/-- The trust store sanctions the token with these claims. -/
def Sanctioned (ed : SignatureCheck) (reg : KeyRegistry) (o : VerifyOptions) (now nowParent : ℤ)
    (token : Units) (c : CapabilityClaims) : Prop :=
  ∃ r, parse token = .ok r ∧ r.claims = c ∧ Live o now c ∧ (∀ a, o.audience = some a → c.sub = a) ∧
    (SanctionedRoot ed reg token r ∨ ∃ prf p, SanctionedChild ed reg o nowParent token r prf p)

/-! ## Verification accepts exactly that -/

theorem CapabilityClaims.truthy_prf (c : CapabilityClaims) : truthy c.prf = c.prf.isSome := by
  have h := c.valid
  simp only [ClaimFields.valid, Bool.and_eq_true] at h
  cases hp : c.prf with
  | none => rfl
  | some s => simpa [truthy, hp] using h.2

theorem CapabilityClaims.truthy_dlg (c : CapabilityClaims) : truthy c.dlg = c.dlg.isSome := by
  have h := c.valid
  simp only [ClaimFields.valid, Bool.and_eq_true] at h
  cases hd : c.dlg with
  | none => rfl
  | some s => simpa [truthy, hd] using h.1.2

theorem b64urlDecode_eq {s : Units} {bs : Bytes} :
    b64urlDecode s = some bs ↔ s = b64urlEncode bs := by
  constructor
  · intro h
    simp only [b64urlDecode] at h
    split_ifs at h
    split at h
    · split_ifs at h with heq
      rw [← Option.some.inj h, heq]
    · simp at h
  · rintro rfl
    exact b64urlDecode_encode bs

theorem b64urlEncode_ne_nil {bs : Bytes} (h : bs.length = 32) : b64urlEncode bs ≠ [] := by
  intro hnil
  have := b64urlDecode_encode bs
  rw [hnil] at this
  obtain rfl : bs = [] := (Option.some.inj this).symm
  simp at h

theorem kidBytes_ok {header : Dict} {key : Bytes} :
    kidBytes header = .ok key ↔ NamesKey header key := by
  rw [kidBytes, bind_eq_ok]
  constructor
  · rintro ⟨kid, hkid, h⟩
    rw [bind_eq_ok] at h
    obtain ⟨raw, hraw, h⟩ := h
    rw [raiseIf_bind_eq_ok, pure_eq_ok, not_not] at h
    obtain ⟨hlen, rfl⟩ := h
    rw [orRaise_eq_ok, b64urlDecode_eq] at hraw
    refine ⟨hlen, ?_⟩
    rw [orRaise_eq_ok, headerKid] at hkid
    split at hkid
    · split_ifs at hkid
      rw [← hraw, ← Option.some.inj hkid]
      assumption
    · simp at hkid
  · rintro ⟨hlen, hkid⟩
    refine ⟨b64urlEncode key, ?_, ?_⟩
    · simp only [headerKid, hkid, if_neg (b64urlEncode_ne_nil hlen), orRaise]
    · rw [b64urlDecode_encode]
      exact bind_eq_ok.mpr ⟨key, rfl, by simp [hlen]⟩

theorem trustedFor_ok {reg : KeyRegistry} {iss : Units} {holder : Bool} {trusted : List Bytes} :
    reg.trustedFor iss holder = .ok trusted ↔
      (if holder then reg.holders iss else reg.keys iss) ≠ [] ∧
        (if holder then reg.holders iss else reg.keys iss) = trusted := by
  cases holder <;> simp [KeyRegistry.trustedFor, KeyRegistry.holderKeysFor, KeyRegistry.keysFor]

section Verification
variable {ed : SignatureCheck} {o : VerifyOptions}

/-- With a registry, the key the header names must be trusted and verify. -/
theorem verifyKidAndSignature_ok {reg : KeyRegistry} (hreg : o.keyRegistry = some reg)
    {token : Units} {r : Parsed} {holder : Bool} :
    verifyKidAndSignature ed o r (signatureOf token) holder = .ok () ↔
      SignedByOneOf ed (if holder then reg.holders r.claims.iss else reg.keys r.claims.iss) token r := by
  simp only [verifyKidAndSignature, hreg]
  rw [bind_eq_ok]
  constructor
  · rintro ⟨kid, hkid, h⟩
    obtain ⟨trusted, ht, h⟩ := bind_eq_ok.mp h
    obtain ⟨-, rfl⟩ := trustedFor_ok.mp ht
    rw [raiseIf_bind_eq_ok, not_not, verifySignature, raiseIf_eq_ok] at h
    exact ⟨kid, h.1, kidBytes_ok.mp hkid, by simpa using h.2⟩
  · rintro ⟨key, hmem, hname, hed⟩
    refine ⟨key, kidBytes_ok.mpr hname, bind_eq_ok.mpr ⟨_, trustedFor_ok.mpr ⟨?_, rfl⟩, ?_⟩⟩
    · exact List.ne_nil_of_mem hmem
    · rw [raiseIf_bind_eq_ok, not_not, verifySignature, raiseIf_eq_ok]
      exact ⟨hmem, by simpa using hed⟩

/-- What `_verify_core` establishes of one link. -/
theorem verifyCore_ok {token : Units} {time : ℚ} {holder : Bool} {c : CapabilityClaims} :
    verifyCore ed o token time holder = .ok c ↔
      (0 ≤ o.leewaySeconds ∧ o.leewaySeconds ≤ 2) ∧ o.issuerPublicKey.isNone ≠ o.keyRegistry.isNone ∧
        ∃ r, parse token = .ok r ∧ r.claims = c ∧
          verifyKidAndSignature ed o r (signatureOf token) holder = .ok () ∧
          Live o (intTime time) c := by
  rw [verifyCore, raiseIf_bind_eq_ok, raiseIf_bind_eq_ok, not_not]
  refine and_congr_right fun _ => and_congr_right fun _ => ?_
  rw [bind_eq_ok]
  refine exists_congr fun r => and_congr_right fun _ => ?_
  rw [bind_eq_ok]
  simp only [raiseIf_bind_eq_ok, pure_eq_ok, not_lt, Bool.not_eq_true, gt_iff_lt]
  constructor
  · rintro ⟨⟨⟩, hsig, httl, hstart, hend, hrev, rfl⟩
    have hlt := r.claims.iat_lt_exp
    exact ⟨rfl, hsig, by omega, httl, hstart, hend, hrev⟩
  · rintro ⟨rfl, hsig, hlive⟩
    exact ⟨(), hsig, hlive.ttl_le, hlive.started, hlive.unexpired, hlive.unrevoked, rfl⟩

theorem verifyCore_parsed {token : Units} {time : ℚ} {holder : Bool} {c : CapabilityClaims}
    {r : Parsed} (hr : parse token = .ok r) (h : verifyCore ed o token time holder = .ok c) :
    c = r.claims := by
  obtain ⟨-, -, r', hr', hc, -⟩ := verifyCore_ok.mp h
  rw [hr] at hr'
  rw [Except.ok.inj hr', hc]

/-- What `verify` establishes: the token's own link, its audience, and its parent's link. -/
theorem verify_ok {token : Units} {time parentTime : ℚ} {c : CapabilityClaims} :
    verify ed o token time parentTime = .ok c ↔
      (c.prf.isSome = true → o.keyRegistry.isSome = true) ∧
        verifyCore ed o token time c.prf.isSome = .ok c ∧
        (∀ a, o.audience = some a → c.sub = a) ∧
        (c.prf = none → c.dlg = none) ∧
        ∀ prf, c.prf = some prf → ∃ parent, parent.prf = none ∧
          verifyCore ed o prf parentTime false = .ok parent ∧ Attenuated parent c := by
  have haud : ∀ c' : CapabilityClaims, ¬ (o.audience ≠ none ∧ o.audience ≠ some c'.sub) ↔
      ∀ a, o.audience = some a → c'.sub = a := by
    intro c'
    cases o.audience <;> simp [eq_comm]
  rw [verify, bind_eq_ok]
  constructor
  · rintro ⟨r, hr, h⟩
    rw [raiseIf_bind_eq_ok, bind_eq_ok, r.claims.truthy_prf] at h
    obtain ⟨hreg, c', hcore, h⟩ := h
    obtain rfl := verifyCore_parsed hr hcore
    rw [raiseIf_bind_eq_ok, haud, CapabilityClaims.truthy_prf] at h
    obtain ⟨haud, h⟩ := h
    cases hp : r.claims.prf with
    | none =>
        simp only [hp, Option.isSome_none, Bool.false_eq_true, if_false, raiseIf_bind_eq_ok,
          pure_eq_ok, r.claims.truthy_dlg, Bool.not_eq_true, Option.isSome_eq_false_iff,
          Option.isNone_iff_eq_none] at h
        obtain ⟨hdlg, rfl⟩ := h
        rw [hp] at hcore
        exact ⟨by simp [hp], by rwa [hp], haud, fun _ => hdlg, by simp [hp]⟩
    | some prf =>
        simp only [hp, Option.isSome_some, if_true, Option.getD_some] at h
        obtain ⟨p, hp', h⟩ := bind_eq_ok.mp h
        rw [raiseIf_bind_eq_ok, p.claims.truthy_prf] at h
        obtain ⟨hpp, h⟩ := h
        obtain ⟨parent, hparent, h⟩ := bind_eq_ok.mp h
        obtain ⟨⟨⟩, hatt, h⟩ := bind_eq_ok.mp h
        obtain rfl := pure_eq_ok.mp h
        obtain rfl := verifyCore_parsed hp' hparent
        refine ⟨fun _ => ?_, hcore, haud, by simp [hp], ?_⟩
        · rw [hp] at hreg
          cases hkr : o.keyRegistry <;> simp_all
        · rintro prf' hprf'
          obtain rfl : prf = prf' := by
            rw [hp] at hprf'
            exact Option.some.inj hprf'
          exact ⟨p.claims, by simpa using hpp, hparent, assertAttenuated_ok.mp hatt⟩
  · rintro ⟨hreg, hcore, haudience, hdlg, hchild⟩
    obtain ⟨-, -, r, hr, rfl, -⟩ := verifyCore_ok.mp hcore
    refine ⟨r, hr, ?_⟩
    rw [raiseIf_bind_eq_ok, bind_eq_ok, r.claims.truthy_prf]
    refine ⟨?_, r.claims, hcore, ?_⟩
    · rintro ⟨h1, h2⟩
      have := hreg h1
      cases hkr : o.keyRegistry <;> simp_all
    · rw [raiseIf_bind_eq_ok, haud, CapabilityClaims.truthy_prf]
      refine ⟨haudience, ?_⟩
      cases hp : r.claims.prf with
      | none => simp [truthy, hdlg hp]
      | some prf =>
          obtain ⟨parent, hpp, hparent, hatt⟩ := hchild prf hp
          obtain ⟨-, -, p, hp', rfl, -⟩ := verifyCore_ok.mp hparent
          simp only [Option.isSome_some, if_true, Option.getD_some]
          refine bind_eq_ok.mpr ⟨p, hp', ?_⟩
          rw [raiseIf_bind_eq_ok, p.claims.truthy_prf, hpp]
          refine ⟨by simp, bind_eq_ok.mpr ⟨_, hparent, bind_eq_ok.mpr ⟨(), ?_, rfl⟩⟩⟩
          exact assertAttenuated_ok.mpr hatt

/-- With a registry and a leeway in range, the core accepts the links the trust store
sanctions. -/
theorem verifyCore_registry {reg : KeyRegistry} (hkey : o.issuerPublicKey = none)
    (hreg : o.keyRegistry = some reg) (hl : 0 ≤ o.leewaySeconds ∧ o.leewaySeconds ≤ 2)
    {token : Units} {time : ℚ} {holder : Bool} {c : CapabilityClaims} :
    verifyCore ed o token time holder = .ok c ↔ ∃ r, parse token = .ok r ∧ r.claims = c ∧
      SignedByOneOf ed (if holder then reg.holders c.iss else reg.keys c.iss) token r ∧
      Live o (intTime time) c := by
  rw [verifyCore_ok, hkey, hreg]
  constructor
  · rintro ⟨-, -, r, hr, rfl, hsig, hlive⟩
    exact ⟨r, hr, rfl, (verifyKidAndSignature_ok hreg).mp hsig, hlive⟩
  · rintro ⟨r, hr, rfl, hsig, hlive⟩
    exact ⟨hl, by simp, r, hr, rfl, (verifyKidAndSignature_ok hreg).mpr hsig, hlive⟩

theorem verify_sanctioned {reg : KeyRegistry} (hkey : o.issuerPublicKey = none)
    (hreg : o.keyRegistry = some reg) (hl : 0 ≤ o.leewaySeconds ∧ o.leewaySeconds ≤ 2)
    {token : Units} {time parentTime : ℚ} {c : CapabilityClaims} :
    verify ed o token time parentTime = .ok c ↔
      Sanctioned ed reg o (intTime time) (intTime parentTime) token c := by
  rw [verify_ok]
  simp only [verifyCore_registry hkey hreg hl]
  constructor
  · rintro ⟨-, ⟨r, hr, rfl, hsig, hlive⟩, haud, hdlg, hchild⟩
    refine ⟨r, hr, rfl, hlive, haud, ?_⟩
    cases hp : r.claims.prf with
    | none => exact Or.inl ⟨hp, hdlg hp, by simpa [hp] using hsig⟩
    | some prf =>
        obtain ⟨parent, hpp, ⟨p, hparsed, rfl, hpsig, hplive⟩, hatt⟩ := hchild prf hp
        have hleaf := hatt.child_leaf
        rw [r.claims.truthy_dlg] at hleaf
        exact Or.inr ⟨prf, p, hp, by simpa using hleaf, by simpa [hp] using hsig, hparsed, hpp,
          by simpa using hpsig, hplive, hatt⟩
  · rintro ⟨r, hr, rfl, hlive, haud, hroot | ⟨prf, p, hchild⟩⟩
    · refine ⟨by simp [hroot.prf], ⟨r, hr, rfl, ?_, hlive⟩, haud, fun _ => hroot.dlg,
        by simp [hroot.prf]⟩
      simpa [hroot.prf] using hroot.signed
    · refine ⟨by simp [hreg], ⟨r, hr, rfl, ?_, hlive⟩, haud, by simp [hchild.prf_eq], ?_⟩
      · simpa [hchild.prf_eq] using hchild.signed
      · rintro prf' hprf'
        obtain rfl : prf = prf' := by
          rw [hchild.prf_eq] at hprf'
          exact Option.some.inj hprf'
        exact ⟨p.claims, hchild.parent_prf, ⟨p, hchild.parsed, rfl,
          by simpa using hchild.parent_signed, hchild.parent_live⟩, hchild.attenuated⟩

/-- **Verification accepts exactly what the trust store sanctions**; and a key that is no
root key of its issuer never authorizes a token without a parent, nor signs an accepted
parent. -/
theorem verify_iff_sanctioned (ed : SignatureCheck) (reg : KeyRegistry) (audience : Option Units)
    (revoked : Units → Bool) (leeway : ℤ) (hl : 0 ≤ leeway ∧ leeway ≤ 2) (token : Units) (time : ℚ)
    (c : CapabilityClaims) :
    let o : VerifyOptions := {
      keyRegistry := some reg, revoked := revoked, audience := audience, leewaySeconds := leeway }
    (verify ed o token time time = .ok c ↔
      Sanctioned ed reg o (intTime time) (intTime time) token c) ∧
    (verify ed o token time time = .ok c → ∀ r key, parse token = .ok r →
      (key ∉ reg.keys c.iss → c.prf = none → ¬ NamesKey r.header key) ∧
      ∀ prf p, c.prf = some prf → parse prf = .ok p → key ∉ reg.keys p.claims.iss →
        ¬ NamesKey p.header key) := by
  intro o
  have hiff : verify ed o token time time = .ok c ↔
      Sanctioned ed reg o (intTime time) (intTime time) token c := verify_sanctioned rfl rfl hl
  refine ⟨hiff, fun hok r key hr => ?_⟩
  -- the key named is the one found among the trusted ones
  have hunique : ∀ (ks : List Bytes) (t : Units) (q : Parsed), SignedByOneOf ed ks t q → key ∉ ks →
      ¬ NamesKey q.header key := by
    rintro ks t q ⟨key', hmem, hname, -⟩ hnot hkey
    have heq := hname.2.symm.trans hkey.2
    simp only [Option.some.injEq, Json.Tree.str.injEq] at heq
    have := congrArg b64urlDecode heq
    rw [b64urlDecode_encode, b64urlDecode_encode] at this
    exact hnot (Option.some.inj this ▸ hmem)
  obtain ⟨r', hr', rfl, -, -, hcase⟩ := hiff.mp hok
  obtain rfl := Except.ok.inj (hr'.symm.trans hr)
  refine ⟨fun hnot hprf => ?_, fun prf p hprf hp hnot => ?_⟩
  · rcases hcase with hroot | ⟨prf, p, hchild⟩
    · exact hunique _ _ _ hroot.signed hnot
    · rw [hchild.prf_eq] at hprf
      exact absurd hprf (by simp)
  · rcases hcase with hroot | ⟨prf', p', hchild⟩
    · rw [hroot.prf] at hprf
      exact absurd hprf (by simp)
    · obtain rfl := Option.some.inj (hchild.prf_eq.symm.trans hprf)
      obtain rfl := Except.ok.inj (hchild.parsed.symm.trans hp)
      exact hunique _ _ _ hchild.parent_signed hnot

end Verification

/-! ## A root token -/

/-- A key pair whose signatures repeat the data's length. -/
def sampleKey : KeyPair := ⟨List.replicate 32 1, fun data => [UInt8.ofNat data.length], rfl⟩

/-- Signatures as `sampleKey` makes them. -/
def sampleCheck : SignatureCheck := fun key data signature =>
  key = sampleKey.publicBytes && signature = sampleKey.sign data

/-- The root claims of an agent for its server. -/
def sampleClaims : CapabilityClaims :=
  ⟨{ iss := "agent", sub := "server", capabilities := ["mail:*"], iat := 1000, exp := 1010,
     jti := "j1" }, by decide⟩

/-- The token of claims, signed with `sampleKey`. -/
def sampleToken (c : CapabilityClaims) : Units :=
  match sign sampleKey c with
  | .ok token => token
  | .error _ => []

/-- `sampleKey` is a root key of every agent and no holder key. -/
def sampleRegistry : KeyRegistry := ⟨fun _ => [sampleKey.publicBytes], fun _ => []⟩

set_option maxRecDepth 100000 in
theorem verify_iff_sanctioned_sample :
    Sanctioned sampleCheck sampleRegistry { keyRegistry := some sampleRegistry } 1005 1005
      (sampleToken sampleClaims) sampleClaims :=
  (verify_iff_sanctioned sampleCheck sampleRegistry none (fun _ => false) 2 (by decide)
    (sampleToken sampleClaims) 1005 sampleClaims).1.mp (by decide +kernel)

end SwarmAuth.Python
