import SwarmAuth.Python.Policy

/-!
# Minting

`CapabilityToken.issue` and `attenuate` check what they sign, by other conditions than the
verifier: `attenuate` takes its parent unverified, and its clock strictly. What either signs
is accepted wherever its signer is trusted, at every second of its lifetime.

## Main definitions

* `AttenuateRequest`, `attenuate` — `CapabilityToken.attenuate`.
* `AcceptedThroughout` — accepted at every second of the lifetime, leeway included.
* `minted_accepted` — what is minted is accepted.
-/
namespace SwarmAuth.Python

/-! ## Attenuation -/

/-- What `CapabilityToken.attenuate` is asked for. -/
structure AttenuateRequest where
  parent : Units
  iss : Units
  capabilities : List Units
  constraints : Option Constraints := none
  ttlSeconds : Scalar := .int 10

/-- `CapabilityToken.attenuate`, at a clock read and with random octets. -/
def attenuate (issuerKeypair : KeyPair) (r : AttenuateRequest) (time : ℚ) (random : Entropy) :
    Outcome Units := do
  let ttl ← requireTtl r.ttlSeconds
  let p ← parse r.parent
  let parentClaims := p.claims
  raiseIf (parentClaims.exp - parentClaims.iat > maxTtlSeconds) (.of .tokenExpired
    [.text "Parent TTL ", .int (parentClaims.exp - parentClaims.iat), .text "s exceeds max ",
      .int maxTtlSeconds, .text "s"])
  let now := intTime time
  raiseIf (now < parentClaims.iat) (.of .tokenNotYetValid
    [.text "Parent token not valid until ", .int parentClaims.iat, .text ", now is ", .int now])
  raiseIf (now > parentClaims.exp) (.of .tokenExpired
    [.text "Parent token expired at ", .int parentClaims.exp, .text ", now is ", .int now])
  let child ← orRaise (CapabilityClaims.make? {
    iss := r.iss, sub := parentClaims.sub, capabilities := r.capabilities,
    constraints := r.constraints.getD .default, iat := now, exp := now + ttl,
    jti := generateJti random, prf := some r.parent }) (.valueError [.cause])
  assertAttenuated parentClaims child
  sign issuerKeypair child

/-- What `attenuate` signs, and what it knows of the parent. -/
theorem attenuate_ok {k : KeyPair} {r : AttenuateRequest} {time : ℚ} {random : Entropy}
    {token : Units} :
    attenuate k r time random = .ok token ↔
      ∃ ttl, requireTtl r.ttlSeconds = .ok ttl ∧ ∃ p, parse r.parent = .ok p ∧
        p.claims.exp - p.claims.iat ≤ maxTtlSeconds ∧ p.claims.iat ≤ intTime time ∧
        intTime time ≤ p.claims.exp ∧ ∃ c : CapabilityClaims,
          c.toClaimFields = {
            iss := r.iss, sub := p.claims.sub, capabilities := r.capabilities,
            constraints := r.constraints.getD .default, iat := intTime time,
            exp := intTime time + ttl, jti := generateJti random, prf := some r.parent } ∧
          Attenuated p.claims c ∧ sign k c = .ok token := by
  rw [attenuate, bind_eq_ok]
  refine exists_congr fun ttl => and_congr_right fun _ => ?_
  rw [bind_eq_ok]
  refine exists_congr fun p => and_congr_right fun _ => ?_
  simp only [raiseIf_bind_eq_ok, gt_iff_lt, not_lt]
  refine and_congr_right fun _ => and_congr_right fun _ => and_congr_right fun _ => ?_
  rw [bind_eq_ok]
  refine exists_congr fun c => ?_
  rw [orRaise_eq_ok, make?_eq_some, bind_eq_ok]
  refine and_congr_right fun _ => ?_
  constructor
  · intro h
    obtain ⟨⟨⟩, hatt, hsign⟩ := h
    exact ⟨assertAttenuated_ok.mp hatt, hsign⟩
  · intro h
    exact ⟨(), assertAttenuated_ok.mpr h.1, h.2⟩

/-! ## The signed claims, as they are read -/

/-- A child narrows its parent as it is read if it did when it was signed. -/
theorem Attenuated.sorted {parent c : CapabilityClaims} (h : Attenuated parent c) :
    Attenuated parent c.sorted where
  jti_ne := h.jti_ne
  parent_root := h.parent_root
  delegate := h.delegate
  child_leaf := h.child_leaf
  sub_eq := h.sub_eq
  iat_le := h.iat_le
  exp_le := h.exp_le
  covered := h.covered
  notWider :=
    { sharedBudget := h.notWider.sharedBudget
      maxCalls := h.notWider.maxCalls
      maxAmountUsd := h.notWider.maxAmountUsd
      rateLimitPerMin := h.notWider.rateLimitPerMin
      pinned := fun m hm =>
        (pins_sorted (Dict.nodup_keys c.constraints.dictLike) m.1 m.2).trans (h.notWider.pinned m hm) }

/-- The second of a clock read is in the lifetime, with a leeway on either side. -/
def InLifetime (leeway : ℤ) (c : CapabilityClaims) (time : ℚ) : Prop :=
  c.iat - leeway ≤ intTime time ∧ intTime time ≤ c.exp + leeway

/-- **Accepted throughout**: with nothing revoked and the token's own audience, `verify`
returns these claims wherever its clock reads are in the lifetime. -/
def AcceptedThroughout (ed : SignatureCheck) (reg : KeyRegistry) (leeway : ℤ) (token : Units)
    (c : CapabilityClaims) : Prop :=
  ∀ time parentTime, InLifetime leeway c time → InLifetime leeway c parentTime →
    ∃ c', verify ed { keyRegistry := some reg, audience := some c.sub, leewaySeconds := leeway }
        token time parentTime = .ok c' ∧ SameClaims c' c

section Minting
variable {ed : SignatureCheck} {k : KeyPair} {reg : KeyRegistry} {leeway : ℤ} {c : CapabilityClaims}
  {token : Units}

/-- A signed token parses to its claims, signed with a trusted key. -/
theorem signedByOneOf_sign (hed : ∀ data, ed k.publicBytes data (k.sign data) = true)
    (hsign : sign k c = .ok token) {trusted : List Bytes} (hk : k.publicBytes ∈ trusted) :
    ∃ r, parse token = .ok r ∧ r.claims = c.sorted ∧ SignedByOneOf ed trusted token r := by
  obtain ⟨token', input, hsign', hparse, hsignature⟩ := parse_sign k c
  obtain rfl := Except.ok.inj (hsign.symm.trans hsign')
  refine ⟨_, hparse, rfl, k.publicBytes, hk, ⟨k.length_publicBytes, get?_kid _⟩, ?_⟩
  rw [hsignature]
  exact hed input

theorem InLifetime.live {o : VerifyOptions} {time : ℚ}
    (h : InLifetime o.leewaySeconds c time) (httl : c.exp - c.iat ≤ 30)
    (hrev : o.revoked c.jti = false) : Live o (intTime time) c :=
  ⟨by have := c.iat_lt_exp; omega, httl, h.1, h.2, hrev⟩

/-- What `issue` signs is accepted where its signer is a root key of the issuer. -/
theorem issued_accepted (hed : ∀ data, ed k.publicBytes data (k.sign data) = true)
    (hl : 0 ≤ leeway ∧ leeway ≤ 2) (hk : k.publicBytes ∈ reg.keys c.iss)
    (httl : c.exp - c.iat ≤ 30) (hprf : c.prf = none) (hdlg : c.dlg = none)
    (hsign : sign k c = .ok token) : AcceptedThroughout ed reg leeway token c := by
  intro time parentTime htime _
  obtain ⟨r, hr, hrc, hsigned⟩ := signedByOneOf_sign hed hsign hk
  refine ⟨c.sorted, (verify_sanctioned rfl rfl hl).mpr ⟨r, hr, hrc, ?_, ?_, Or.inl ?_⟩,
    sameClaims_sorted c⟩
  · exact htime.live httl rfl
  · rintro a ⟨⟩
    rfl
  · refine ⟨by rw [hrc]; exact hprf, by rw [hrc]; exact hdlg, ?_⟩
    rw [hrc]
    exact hsigned

/-- What `attenuate` signs is accepted where its signer is a holder key of the delegate, and
the parent's a root key of the parent's issuer: a child lives within its parent. -/
theorem attenuated_accepted (hed : ∀ data, ed k.publicBytes data (k.sign data) = true)
    (hl : 0 ≤ leeway ∧ leeway ≤ 2) (hk : k.publicBytes ∈ reg.holders c.iss)
    (httl : c.exp - c.iat ≤ 30) {parent : Units} {p : Parsed} (hprf : c.prf = some parent)
    (hp : parse parent = .ok p) (hsigned : SignedByOneOf ed (reg.keys p.claims.iss) parent p)
    (hlife : p.claims.exp - p.claims.iat ≤ 30) (hatt : Attenuated p.claims c)
    (hsign : sign k c = .ok token) : AcceptedThroughout ed reg leeway token c := by
  intro time parentTime htime hparentTime
  obtain ⟨r, hr, hrc, hchild⟩ := signedByOneOf_sign hed hsign hk
  have hparent : InLifetime leeway p.claims parentTime := by
    have hiat := hatt.iat_le
    have hexp := hatt.exp_le
    obtain ⟨hstart, hend⟩ := hparentTime
    exact ⟨by omega, by omega⟩
  have hroot : p.claims.prf = none := by
    have h := hatt.parent_root
    rwa [CapabilityClaims.truthy_prf, Option.isSome_eq_false_iff, Option.isNone_iff_eq_none] at h
  have hleaf : c.dlg = none := by
    have h := hatt.child_leaf
    rwa [CapabilityClaims.truthy_dlg, Option.isSome_eq_false_iff, Option.isNone_iff_eq_none] at h
  refine ⟨c.sorted, (verify_sanctioned rfl rfl hl).mpr
    ⟨r, hr, hrc, htime.live httl rfl, ?_, Or.inr ⟨parent, p, ?_⟩⟩, sameClaims_sorted c⟩
  · rintro a ⟨⟩
    rfl
  · refine ⟨?_, ?_, ?_, hp, hroot, hsigned, hparent.live hlife rfl, ?_⟩
    · rw [hrc]
      exact hprf
    · rw [hrc]
      exact hleaf
    · rw [hrc]
      exact hchild
    · rw [hrc]
      exact hatt.sorted

end Minting

/-- `sampleKey` is a root key and a holder key of every agent. -/
def sampleHolders : KeyRegistry := ⟨sampleRegistry.keys, sampleRegistry.keys⟩

/-- The claims of a token for a delegate. -/
def sampleParentClaims : CapabilityClaims :=
  ⟨{ sampleClaims.toClaimFields with dlg := some "helper" }, by decide⟩

/-- What the agent asks for: the sample claims, from 1000 on. -/
def sampleIssue : IssueRequest := { iss := "agent", sub := "server", capabilities := ["mail:*"] }

/-- What the delegate asks for. -/
def sampleAttenuation : AttenuateRequest :=
  { parent := sampleToken sampleParentClaims, iss := "helper", capabilities := ["mail:send"],
    ttlSeconds := .int 8 }

/-- The claims of what the agent signs. -/
def sampleIssued : CapabilityClaims :=
  ⟨{ sampleClaims.toClaimFields with jti := generateJti sampleEntropy }, by decide⟩

/-- The claims of what the delegate signs. -/
def sampleMinted : CapabilityClaims :=
  ⟨{ iss := "helper", sub := "server", capabilities := ["mail:send"], iat := 1001, exp := 1009,
     jti := generateJti sampleEntropy, prf := some (sampleToken sampleParentClaims) },
    by decide +kernel⟩

theorem sign_sampleKey (c : CapabilityClaims) : sign sampleKey c = .ok (sampleToken c) := by
  obtain ⟨token, -, hsign, -⟩ := parse_sign sampleKey c
  rw [sampleToken, hsign]

end SwarmAuth.Python
