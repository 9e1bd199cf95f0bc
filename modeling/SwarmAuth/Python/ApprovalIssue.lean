import SwarmAuth.Python.Approvals
import SwarmAuth.Python.Policy

/-!
# Tokens for approvals

`ApprovalService.issue` reads the clock three times: whether the approval is active, how
many seconds remain of it, and when the token is signed. The lifetime is compared with the
seconds that remained at the second read, and starts at the third.

## Main definitions

* `ApprovalStore`, `active`, `issue` — the store's answers, `_active` and `issue`.
* `issue_grants` — what a returned token grants.
* `Bounded` — the token is no more than the approval.
* `issue_bounded_iff` — it is so while signing is no later than the slack allows.
-/
namespace SwarmAuth.Python.Approvals

/-! ## Issuing -/

/-- What the store answers to the calls of one `issue`, or raises. -/
structure ApprovalStore where
  get : Units → Outcome (Option Approval)
  isActive : Approval → Outcome Bool

/-- The clock reads of one `issue`, in their order. -/
structure IssueReads where
  activity : ℚ
  remaining : ℚ
  signing : ℚ

/-- The arguments of `issue` that end up in the token. -/
structure IssueCall where
  iss : Units
  sub : Units
  capabilities : List Units
  ttlSeconds : Scalar := .int 10

/-- `Constraints(max_calls=1, allowed_params=approval.pins())`. -/
def Approval.constraints (a : Approval) : Constraints :=
  ⟨{ maxCalls := some 1, allowedParams := a.pins }, by
    simp [ConstraintFields.valid, positiveSafe, maxSafe, budgetPins, Approval.pins, pinned], by
    simp only [ConstraintFields.dictLike, Approval.pins, pinned, Json.Tree.keysNodup_obj,
      List.map_cons, List.map_nil, List.all_cons, List.all_nil, Json.Tree.keysNodup_str]
    decide⟩

/-- `_active`. -/
def active (store : ApprovalStore) (approvalId : Units) (now : ℚ) : Outcome Approval := do
  let refused := violation "Approval is absent, expired, superseded, or invalidated"
  let approval ← orRaise (← store.get approvalId) refused
  raiseIf ((approval.expiresAt : ℚ) ≤ now) refused
  let isActive ← store.isActive approval
  raiseIf (!isActive) refused
  return approval

/-- `issue`. -/
def issue (store : ApprovalStore) (approvalId : Units) (issuer : TokenIssuer) (call : IssueCall)
    (reads : IssueReads) (random : Entropy) : Outcome Units := do
  let approval ← active store approvalId reads.activity
  let remaining := approval.expiresAt - intTime reads.remaining
  -- what is no number cannot be compared; here it is refused when it is signed
  raiseIf (ttlExceeds call.ttlSeconds remaining) (violation "Token would outlive the approval")
  issuer.issue {
    iss := call.iss, sub := call.sub, capabilities := call.capabilities,
    constraints := some approval.constraints, ttlSeconds := call.ttlSeconds } reads.signing random

/-! ## What a returned token grants -/

theorem active_ok {store : ApprovalStore} {approvalId : Units} {now : ℚ} {a : Approval}
    (h : active store approvalId now = .ok a) :
    store.get approvalId = .ok (some a) ∧ now < a.expiresAt ∧ store.isActive a = .ok true := by
  obtain ⟨record, hget, h⟩ := bind_eq_ok.mp h
  obtain ⟨approval, hrecord, h⟩ := bind_eq_ok.mp h
  rw [raiseIf_bind_eq_ok] at h
  obtain ⟨isActive, hactive, hlast⟩ := bind_eq_ok.mp h.2
  rw [raiseIf_bind_eq_ok, pure_eq_ok] at hlast
  obtain ⟨htrue, rfl⟩ := hlast
  rw [orRaise_eq_ok] at hrecord
  refine ⟨hrecord ▸ hget, not_le.mp h.1, ?_⟩
  rwa [show isActive = true by simpa using htrue] at hactive

/-- What a `TokenIssuer` returns was signed by `CapabilityToken.issue`, policy or not. -/
theorem issue_of_tokenIssuer {i : TokenIssuer} {r : IssueRequest} {time : ℚ} {random : Entropy}
    {token : Units} (h : i.issue r time random = .ok token) :
    SwarmAuth.Python.issue i.keypair { r with constraints := some (r.constraints.getD .default) }
      time random = .ok token := by
  rw [TokenIssuer.issue] at h
  cases hp : i.policy with
  | none => simpa only [hp] using h
  | some policy =>
      simp only [hp] at h
      obtain ⟨-, -, h⟩ := bind_eq_ok.mp h
      exact h

/-- The pins read back as they were signed. -/
theorem Approval.sorted_pins (a : Approval) : a.pins.sorted.Perm a.pins :=
  Dict.sorted_perm a.pins

/-- **What a returned token grants**: its lifetime fitted what remained at the second read,
and runs from the third. -/
theorem issue_grants {store : ApprovalStore} {approvalId : Units} {issuer : TokenIssuer}
    {call : IssueCall} {reads : IssueReads} {random : Entropy} {token : Units}
    (h : issue store approvalId issuer call reads random = .ok token) :
    ∃ a ttl r, store.get approvalId = .ok (some a) ∧ call.ttlSeconds = .int ttl ∧
      ttl ≤ a.expiresAt - intTime reads.remaining ∧ parse token = .ok r ∧
      r.claims.exp = intTime reads.signing + ttl ∧ r.claims.constraints.maxCalls = some 1 ∧
      r.claims.constraints.allowedParams.Perm a.pins := by
  obtain ⟨a, hactive, h⟩ := bind_eq_ok.mp h
  rw [raiseIf_bind_eq_ok] at h
  obtain ⟨ttl, httl, c, hc, hsign⟩ := issue_ok.mp (issue_of_tokenIssuer h.2)
  obtain ⟨r, hr, hclaims⟩ := parse_of_sign hsign
  have hint := (requireTtl_ok httl).1
  have hexp : c.exp = intTime reads.signing + ttl := by rw [hc]
  have hconstraints : c.constraints = a.constraints := by
    rw [hc]
    rfl
  refine ⟨a, ttl, r, (active_ok hactive).1, hint, ?_, hr, ?_, ?_, ?_⟩
  · have hfits := h.1
    rw [show call.ttlSeconds = .int ttl from hint] at hfits
    simp only [ttlExceeds, Scalar.gt, Scalar.denote, decide_eq_true_eq, not_lt] at hfits
    exact_mod_cast hfits
  · rw [hclaims]
    exact hexp
  · rw [hclaims]
    show c.constraints.maxCalls = some 1
    rw [hconstraints]
    rfl
  · rw [hclaims]
    show (c.constraints.allowedParams.sorted).Perm a.pins
    rw [hconstraints]
    exact a.sorted_pins

/-! ## When it does not outlive the approval -/

/-- The token grants one call with exactly the approval's pins, and ends no later. -/
def Bounded (a : Approval) (token : Units) : Prop :=
  ∃ r, parse token = .ok r ∧ r.claims.exp ≤ a.expiresAt ∧
    r.claims.constraints.maxCalls = some 1 ∧ r.claims.constraints.allowedParams.Perm a.pins

/-- The seconds the approval outlasts a token of this lifetime that starts at the second
read. -/
def slack (a : Approval) (reads : IssueReads) (ttl : ℤ) : ℤ :=
  a.expiresAt - intTime reads.remaining - ttl

theorem bounded_iff {store : ApprovalStore} {approvalId : Units} {issuer : TokenIssuer}
    {call : IssueCall} {reads : IssueReads} {random : Entropy} {token : Units} {a : Approval}
    {ttl : ℤ} (h : issue store approvalId issuer call reads random = .ok token)
    (ha : store.get approvalId = .ok (some a)) (httl : call.ttlSeconds = .int ttl) :
    Bounded a token ↔ intTime reads.signing - intTime reads.remaining ≤ slack a reads ttl := by
  obtain ⟨a', ttl', r, hget, hint, -, hr, hexp, hcalls, hpins⟩ := issue_grants h
  obtain rfl : a = a' := Option.some.inj (Except.ok.inj (ha.symm.trans hget))
  obtain rfl : ttl = ttl' := Scalar.int.inj (httl.symm.trans hint)
  rw [slack]
  constructor
  · rintro ⟨r', hr', hle, -⟩
    obtain rfl : r = r' := Except.ok.inj (hr.symm.trans hr')
    omega
  · intro hle
    exact ⟨r, hr, by omega, hcalls, hpins⟩

/-- An approval that expires at 1010. -/
def sampleGranted : Approval :=
  ⟨"a1", "order-42", "v1", "44136fa355b3678a1146ad16f7e8649e94fb4fc21fe77e8310c060f61caaff8a", 1010⟩

def sampleApprovals : ApprovalStore := ⟨fun _ => .ok (some sampleGranted), fun _ => .ok true⟩

def sampleIssueCall : IssueCall :=
  { iss := "agent", sub := "server", capabilities := ["order:pay"], ttlSeconds := .int 10 }

/-- Ten seconds remain at 1000.9, and the token is signed at 1001. -/
def lateReads : IssueReads := ⟨1000.9, 1000.9, 1001⟩

theorem length_zeros : (List.replicate 16 0 : Bytes).length = 16 := rfl

/-- The token of the sample call. -/
def sampleIssued (reads : IssueReads) : Units :=
  match issue sampleApprovals "a1" ⟨sampleKey, none⟩ sampleIssueCall reads
      ⟨List.replicate 16 0, length_zeros⟩ with
  | .ok token => token
  | .error _ => []

end SwarmAuth.Python.Approvals
