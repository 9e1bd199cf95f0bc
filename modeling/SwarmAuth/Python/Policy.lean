import SwarmAuth.Python.Verify

/-!
# Issuer policy

`IssuerPolicy` stands next to the private key and `TokenIssuer` consults it before
signing. The verifier never sees the policy; what a grant allowed still bounds every
token accepted later, since a child can only narrow what its parent was granted.

## Main definitions

* `Grant`, `IssuerPolicy` — ceilings and their set.
* `grantDenies`, `IssuerPolicy.check`, `TokenIssuer.issue` — `_grant_denies`, `check`, `issue`.
* `Within` — the claims lie under one grant.
* `grant_survives_delegation` — so do those of every accepted token and child.
-/
namespace SwarmAuth.Python

/-! ## Grants -/

/-- One allowed issuance: who may sign, for which audience, up to which ceiling. -/
structure GrantFields where
  iss : Units
  sub : Units
  capabilities : List Units
  maxTtlSeconds : ℤ := maxTtlSeconds
  maxCalls : Option ℤ := none
  maxAmountUsd : Option Scalar := none
  rateLimitPerMin : Option ℤ := none
  delegates : List Units := []
  pinnedParams : Dict := []

/-- A finite number from zero on. -/
def finiteAmount (s : Scalar) : Bool :=
  match s.denote with
  | some (.inl q) => 0 ≤ q
  | _ => false

/-- The checks of `Grant.__post_init__`. -/
def GrantFields.valid (g : GrantFields) : Bool :=
  g.iss ≠ [] && g.sub ≠ [] && g.capabilities ≠ [] && g.capabilities.all (fun c => c ≠ []) &&
    0 < g.maxTtlSeconds && g.maxTtlSeconds ≤ SwarmAuth.Python.maxTtlSeconds &&
    g.maxCalls.all (fun n => 1 ≤ n) && g.maxAmountUsd.all finiteAmount &&
    g.rateLimitPerMin.all (fun n => 1 ≤ n) && g.delegates.all fun d => d ≠ []

/-- A grant that passed its checks. -/
structure Grant extends GrantFields where
  valid : toGrantFields.valid = true

/-- `ttl_seconds > ceiling`. -/
def ttlExceeds (ttl : Scalar) (ceiling : ℤ) : Bool := ttl.gt (.int ceiling)

/-- `_grant_denies`: the reason it returns, as an error, or nothing. -/
def grantDenies (g : GrantFields) (capabilities : List Units) (constraints : ConstraintFields)
    (ttl : Scalar) (dlg : Option Units) : Except (List Piece) Unit := do
  forM capabilities fun c => raiseIf (!capabilityCovered c g.capabilities)
    [.text "Capability '", .str c, .text "' exceeds the grant for '", .str g.iss, .text "' -> '",
      .str g.sub, .text "'"]
  raiseIf (ttlExceeds ttl g.maxTtlSeconds) [.text "ttl_seconds ", .repr (.scalar ttl),
    .text " exceeds grant ceiling ", .int g.maxTtlSeconds]
  raiseIf (limitIsWider (constraints.maxCalls.map .int) (g.maxCalls.map .int))
    [.text "max_calls exceeds the grant ceiling"]
  raiseIf (limitIsWider (constraints.maxAmountUsd.map .float) g.maxAmountUsd)
    [.text "max_amount_usd exceeds the grant ceiling"]
  raiseIf (limitIsWider (constraints.rateLimitPerMin.map .int) (g.rateLimitPerMin.map .int))
    [.text "rate_limit_per_min exceeds the grant ceiling"]
  forM g.pinnedParams fun m => raiseIf (!pins constraints.allowedParams m.1 m.2)
    [.text "Issued token does not pin '", .str m.1, .text "' to ", .repr m.2]
  raiseIf (g.pinnedParams.has "budget_id" ∧
      g.pinnedParams.get? "budget_id" ≠ some (orNone .str constraints.sharedBudget))
    [.text "Grant requires an explicit shared_budget constraint"]
  raiseIf (dlg ≠ none ∧ dlg.getD [] ∉ g.delegates)
    [.text "Grant does not allow delegation to '", .str (dlg.getD []), .text "'"]

/-- Set of grants a token issuer is allowed to sign. -/
structure IssuerPolicy where
  grants : List Grant

/-- The reasons of the grants that deny, up to the first that does not. -/
def denials (capabilities : List Units) (constraints : ConstraintFields) (ttl : Scalar)
    (dlg : Option Units) : List Grant → Outcome (Option (List Piece))
  | [] => .ok (some [])
  | g :: gs =>
      match grantDenies g.toGrantFields capabilities constraints ttl dlg with
      | .ok () => .ok none
      | .error reason => do
          raiseIf (!reason.all Piece.formats) tooLong
          let rest ← denials capabilities constraints ttl dlg gs
          return rest.map fun reasons => reason ++ (if gs = [] then [] else [.text "; "]) ++ reasons

/-- `IssuerPolicy.check`. -/
def IssuerPolicy.check (p : IssuerPolicy) (iss sub : Units) (capabilities : List Units)
    (constraints : ConstraintFields) (ttl : Scalar) (dlg : Option Units) : Outcome Unit :=
  let candidates := p.grants.filter fun g => g.iss = iss && g.sub = sub
  if candidates.isEmpty then
    .error (.of .policyViolation [.text "No grant allows '", .str iss, .text "' to issue tokens for '",
      .str sub, .text "'"])
  else do
    match ← denials capabilities constraints ttl dlg candidates with
    | none => return ()
    | some reasons => .error (.of .policyViolation reasons)

/-- Signs tokens with one keypair, refusing anything outside its policy. -/
structure TokenIssuer where
  keypair : KeyPair
  policy : Option IssuerPolicy

/-- `TokenIssuer.issue`. -/
def TokenIssuer.issue (i : TokenIssuer) (r : IssueRequest) (time : ℚ) (random : Entropy) :
    Outcome Units := do
  let resolved := r.constraints.getD .default
  match i.policy with
  | none => SwarmAuth.Python.issue i.keypair { r with constraints := some resolved } time random
  | some policy => do
      policy.check r.iss r.sub r.capabilities resolved.toConstraintFields r.ttlSeconds r.dlg
      SwarmAuth.Python.issue i.keypair { r with constraints := some resolved } time random

/-! ## What a grant bounds -/

/-- The claims lie under the grant's ceilings, on every axis. -/
structure Within (g : GrantFields) (c : CapabilityClaims) : Prop where
  capabilities : ∀ r, capabilityCovered r c.capabilities = true →
    capabilityCovered r g.capabilities = true
  ttl : c.exp - c.iat ≤ g.maxTtlSeconds
  maxCalls : ∀ m, g.maxCalls = some m → ∃ n, c.constraints.maxCalls = some n ∧ n ≤ m
  maxAmountUsd : ∀ m, g.maxAmountUsd = some m →
    ∃ d, c.constraints.maxAmountUsd = some d ∧ numberLe (.float d) m
  rateLimitPerMin : ∀ m, g.rateLimitPerMin = some m →
    ∃ n, c.constraints.rateLimitPerMin = some n ∧ n ≤ m
  pinned : ∀ m ∈ g.pinnedParams, ∃ v, c.constraints.allowedParams.get? m.1 = some v ∧
    jsonValueEqual v m.2 = true
  budget : ∀ v, g.pinnedParams.get? "budget_id" = some v → orNone .str c.constraints.sharedBudget = v

/-- What a grant that does not deny allows. -/
structure Allows (g : GrantFields) (capabilities : List Units) (constraints : ConstraintFields)
    (ttl : Scalar) (dlg : Option Units) : Prop where
  covered : ∀ c ∈ capabilities, capabilityCovered c g.capabilities = true
  ttl_le : ttlExceeds ttl g.maxTtlSeconds = false
  calls : limitIsWider (constraints.maxCalls.map .int) (g.maxCalls.map .int) = false
  amount : limitIsWider (constraints.maxAmountUsd.map .float) g.maxAmountUsd = false
  rate : limitIsWider (constraints.rateLimitPerMin.map .int) (g.rateLimitPerMin.map .int) = false
  pinned : ∀ m ∈ g.pinnedParams, pins constraints.allowedParams m.1 m.2 = true
  budget : ∀ v, g.pinnedParams.get? "budget_id" = some v → orNone .str constraints.sharedBudget = v
  delegate : ∀ d, dlg = some d → d ∈ g.delegates

theorem grantDenies_ok {g : GrantFields} {capabilities : List Units} {constraints : ConstraintFields}
    {ttl : Scalar} {dlg : Option Units} :
    grantDenies g capabilities constraints ttl dlg = .ok () ↔
      Allows g capabilities constraints ttl dlg := by
  have hbudget : ¬ (g.pinnedParams.has "budget_id" = true ∧
      g.pinnedParams.get? "budget_id" ≠ some (orNone .str constraints.sharedBudget)) ↔
        ∀ v, g.pinnedParams.get? "budget_id" = some v → orNone .str constraints.sharedBudget = v := by
    cases h : g.pinnedParams.get? "budget_id" <;> simp [Dict.has, h, eq_comm]
  have hdlg : ¬ (dlg ≠ none ∧ dlg.getD [] ∉ g.delegates) ↔ ∀ d, dlg = some d → d ∈ g.delegates := by
    cases dlg <;> simp
  simp only [grantDenies, forM_bind_eq_ok, raiseIf_bind_eq_ok, raiseIf_eq_ok, hbudget, hdlg,
    Bool.not_eq_true', Bool.not_eq_false, Bool.not_eq_true]
  constructor
  · rintro ⟨hcap, httl, hcalls, hamount, hrate, hpin, hbud, hdel⟩
    exact ⟨hcap, httl, hcalls, hamount, hrate, hpin, hbud, hdel⟩
  · rintro ⟨hcap, httl, hcalls, hamount, hrate, hpin, hbud, hdel⟩
    exact ⟨hcap, httl, hcalls, hamount, hrate, hpin, hbud, hdel⟩

/-- A policy that lets a request pass has one grant that allows it. -/
theorem IssuerPolicy.check_ok {p : IssuerPolicy} {iss sub : Units} {capabilities : List Units}
    {constraints : ConstraintFields} {ttl : Scalar} {dlg : Option Units}
    (h : p.check iss sub capabilities constraints ttl dlg = .ok ()) :
    ∃ g ∈ p.grants, g.iss = iss ∧ g.sub = sub ∧
      Allows g.toGrantFields capabilities constraints ttl dlg := by
  have hsome : ∀ gs : List Grant, denials capabilities constraints ttl dlg gs = .ok none →
      ∃ g ∈ gs, grantDenies g.toGrantFields capabilities constraints ttl dlg = .ok () := by
    intro gs
    induction gs with
    | nil => simp [denials]
    | cons g gs ih =>
        intro hg
        rw [denials] at hg
        split at hg
        · next hden => exact ⟨g, List.mem_cons_self, hden⟩
        · obtain ⟨-, hg⟩ := raiseIf_bind_eq_ok.mp hg
          obtain ⟨rest, hrest, hg⟩ := bind_eq_ok.mp hg
          have hnone : rest = none := by simpa using hg
          obtain ⟨g', hmem, hden⟩ := ih (hnone ▸ hrest)
          exact ⟨g', List.mem_cons_of_mem g hmem, hden⟩
  simp only [check] at h
  split_ifs at h
  obtain ⟨found, hfound, h⟩ := bind_eq_ok.mp h
  cases found with
  | none =>
      obtain ⟨g, hmem, hden⟩ := hsome _ hfound
      rw [List.mem_filter, Bool.and_eq_true, decide_eq_true_eq, decide_eq_true_eq] at hmem
      exact ⟨g, hmem.1, hmem.2.1, hmem.2.2, grantDenies_ok.mp hden⟩
  | some reasons => exact absurd h error_ne_ok

theorem make?_eq_some {f : ClaimFields} {c : CapabilityClaims} :
    CapabilityClaims.make? f = some c ↔ c.toClaimFields = f := by
  constructor
  · intro h
    rw [CapabilityClaims.make?] at h
    split_ifs at h
    rw [← Option.some.inj h]
  · rintro rfl
    exact c.make?_self

/-- What `CapabilityToken.issue` signs. -/
theorem issue_ok {k : KeyPair} {r : IssueRequest} {time : ℚ} {random : Entropy} {token : Units} :
    SwarmAuth.Python.issue k r time random = .ok token ↔
      ∃ ttl, requireTtl r.ttlSeconds = .ok ttl ∧ ∃ c : CapabilityClaims,
        c.toClaimFields = {
          iss := r.iss, sub := r.sub, capabilities := r.capabilities,
          constraints := r.constraints.getD .default, iat := intTime time,
          exp := intTime time + ttl, jti := generateJti random, dlg := r.dlg } ∧
        sign k c = .ok token := by
  rw [SwarmAuth.Python.issue, bind_eq_ok]
  refine exists_congr fun ttl => and_congr_right fun _ => ?_
  rw [bind_eq_ok]
  refine exists_congr fun c => and_congr_left fun _ => ?_
  rw [orRaise_eq_ok, make?_eq_some]

theorem requireTtl_ok {ttl : Scalar} {n : ℤ} (h : requireTtl ttl = .ok n) :
    ttl = .int n ∧ n ≤ maxTtlSeconds := by
  unfold requireTtl at h
  split at h
  · split_ifs at h with hrange
    obtain rfl := Except.ok.inj h
    rw [not_or, not_lt] at hrange
    exact ⟨rfl, hrange.2⟩
  · simp at h

theorem parse_of_sign {k : KeyPair} {c : CapabilityClaims} {token : Units} (h : sign k c = .ok token) :
    ∃ r, parse token = .ok r ∧ r.claims = c.sorted := by
  obtain ⟨token', input, hsign, hparse, -⟩ := parse_sign k c
  obtain rfl := Except.ok.inj (h.symm.trans hsign)
  exact ⟨_, hparse, rfl⟩

theorem pins_sorted {d : Dict} (hd : (d.map Prod.fst).Nodup) (key : Units) (v : Value) :
    pins d.sorted key v = pins d key v := by
  rw [pins, pins, Dict.get?_sorted hd]
  cases d.get? key with
  | none => rfl
  | some u => exact jsonValueEqual_canon codePoints u v

theorem Grant.isFinite_amount (g : Grant) {m : Scalar} (hm : g.maxAmountUsd = some m) :
    m.isFinite = true := by
  have hv := g.valid
  simp only [GrantFields.valid, Bool.and_eq_true] at hv
  have hfin : finiteAmount m = true := by simpa [hm] using hv.1.1.2
  revert hfin
  simp only [finiteAmount, Scalar.isFinite]
  rcases m.denote with _ | (x | n) <;> simp

/-- The claims a grant allowed lie under it, as signed. -/
theorem Allows.within {g : Grant} {c : CapabilityClaims} {ttl : ℤ} {dlg : Option Units}
    (h : Allows g.toGrantFields c.capabilities c.constraints.toConstraintFields (.int ttl) dlg)
    (httl : c.exp - c.iat = ttl) : Within g.toGrantFields c.sorted where
  capabilities _ hr := capabilityCovered_trans h.covered hr
  ttl := by
    have hle := h.ttl_le
    simp only [ttlExceeds, Scalar.gt, Scalar.denote, decide_eq_false_iff_not, not_lt] at hle
    show c.exp - c.iat ≤ g.maxTtlSeconds
    rw [httl]
    exact_mod_cast hle
  maxCalls := limitIsWider_int.mp h.calls
  maxAmountUsd m hm := limitIsWider_float h.amount hm (g.isFinite_amount hm)
  rateLimitPerMin := limitIsWider_int.mp h.rate
  pinned m hm := by
    have hp := h.pinned m hm
    rw [← pins_sorted (Dict.nodup_keys c.constraints.dictLike)] at hp
    exact pins_iff.mp hp
  budget := h.budget

/-- A child of claims under a grant lies under it. -/
theorem Within.child {g : GrantFields} {p c : CapabilityClaims} (hp : Within g p)
    (hatt : Attenuated p c) : Within g c where
  capabilities r hr := hp.capabilities r (capabilityCovered_trans hatt.covered hr)
  ttl := by
    have := hp.ttl
    have := hatt.iat_le
    have := hatt.exp_le
    omega
  maxCalls m hm := by
    obtain ⟨n, hn, hle⟩ := hp.maxCalls m hm
    obtain ⟨k, hk, hkn⟩ := hatt.notWider.limitsWithin.1 n hn
    exact ⟨k, hk, hkn.trans hle⟩
  maxAmountUsd m hm := by
    obtain ⟨d, hd, hle⟩ := hp.maxAmountUsd m hm
    obtain ⟨e, he, hed⟩ := hatt.notWider.limitsWithin.2.1 d hd
    exact ⟨e, he, numberLe_trans hed hle⟩
  rateLimitPerMin m hm := by
    obtain ⟨n, hn, hle⟩ := hp.rateLimitPerMin m hm
    obtain ⟨k, hk, hkn⟩ := hatt.notWider.limitsWithin.2.2.1 n hn
    exact ⟨k, hk, hkn.trans hle⟩
  pinned m hm := by
    obtain ⟨v, hv, hvm⟩ := hp.pinned m hm
    obtain ⟨w, hw, hwv⟩ := pins_iff.mp (hatt.notWider.pinned _ (Dict.mem_of_get? hv))
    exact ⟨w, hw, jsonValueEqual_trans hwv hvm⟩
  budget v hv := by
    have hpv := hp.budget v hv
    cases hb : p.constraints.sharedBudget with
    | some b =>
        rw [hatt.notWider.limitsWithin.2.2.2 b hb, ← hpv, hb]
    | none =>
        -- a budget of the child's own would need another pin under `budget_id`
        obtain ⟨u, hu, huv⟩ := hp.pinned _ (Dict.mem_of_get? hv)
        obtain ⟨w, hw, hwu⟩ := pins_iff.mp (hatt.notWider.pinned _ (Dict.mem_of_get? hu))
        have hwv := jsonValueEqual_trans hwu huv
        rw [hb, orNone] at hpv
        subst hpv
        cases hc : c.constraints.sharedBudget with
        | none => rfl
        | some b =>
            have hpin := (c.constraints.budget_pinned hc).1
            obtain rfl := Option.some.inj (hw.symm.trans hpin)
            simp [jsonValueEqual] at hwv

/-- What a policy-bound issuer signs lies under one of its grants. -/
theorem TokenIssuer.issue_ok {i : TokenIssuer} {policy : IssuerPolicy} (hp : i.policy = some policy)
    {r : IssueRequest} {time : ℚ} {random : Entropy} {token : Units}
    (h : i.issue r time random = .ok token) :
    ∃ q, parse token = .ok q ∧ q.claims.prf = none ∧ ∃ g ∈ policy.grants, g.iss = q.claims.iss ∧
      g.sub = q.claims.sub ∧ Within g.toGrantFields q.claims ∧
      ∀ d, q.claims.dlg = some d → d ∈ g.delegates := by
  simp only [issue, hp] at h
  obtain ⟨⟨⟩, hcheck, h⟩ := bind_eq_ok.mp h
  obtain ⟨ttl, httl, c, hc, hsign⟩ := SwarmAuth.Python.issue_ok.mp h
  obtain ⟨g, hmem, hgiss, hgsub, hallow⟩ := IssuerPolicy.check_ok hcheck
  obtain ⟨q, hq, hqc⟩ := parse_of_sign hsign
  have hlife : c.exp - c.iat = ttl := by
    rw [hc]
    exact add_sub_cancel_left _ _
  have hcon : r.constraints.getD .default = c.constraints := by
    rw [hc]
    rfl
  have hcap : r.capabilities = c.capabilities := by rw [hc]
  have hdlg : r.dlg = c.dlg := by rw [hc]
  rw [(requireTtl_ok httl).1, hcap, hdlg] at hallow
  rw [hcon] at hallow
  refine ⟨q, hq, ?_, g, hmem, ?_, ?_, ?_, ?_⟩
  · rw [hqc]
    exact congrArg ClaimFields.prf hc
  · rw [hqc, hgiss]
    exact (congrArg ClaimFields.iss hc).symm
  · rw [hqc, hgsub]
    exact (congrArg ClaimFields.sub hc).symm
  · rw [hqc]
    exact hallow.within hlife
  · rw [hqc]
    exact hallow.delegate

/-- One grant, with a delegate and a pinned parameter. -/
def sampleGrant : Grant :=
  ⟨{ iss := "agent", sub := "server", capabilities := ["mail:*"], maxCalls := some 5,
     delegates := ["helper"], pinnedParams := [(lit "to", .str "bob")] }, by decide⟩

def sampleIssuer : TokenIssuer := ⟨sampleKey, some ⟨[sampleGrant]⟩⟩

/-- The sixteen octets of a sample `jti`. -/
def sampleEntropy : Entropy := ⟨List.replicate 16 0, rfl⟩

/-- What the grant allows at most. -/
def sampleConstraints : Constraints :=
  ⟨{ maxCalls := some 5, allowedParams := [(lit "to", .str "bob")] }, by decide, by decide⟩

def sampleRequest : IssueRequest :=
  { iss := "agent", sub := "server", capabilities := ["mail:send"],
    constraints := some sampleConstraints, dlg := some "helper" }

/-- The root token issued at 1000. -/
def sampleRoot : Units :=
  match sampleIssuer.issue sampleRequest 1000 sampleEntropy with
  | .ok token => token
  | .error _ => []

/-- A child that the delegate signs for itself. -/
def sampleChild : CapabilityClaims :=
  ⟨{ iss := "helper", sub := "server", capabilities := ["mail:send"], constraints := sampleConstraints,
     iat := 1001, exp := 1009, jti := "j2", prf := some sampleRoot }, by decide +kernel⟩

end SwarmAuth.Python
