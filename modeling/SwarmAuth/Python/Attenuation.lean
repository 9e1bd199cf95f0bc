import SwarmAuth.Python.Claims
import SwarmAuth.Python.Errors
import SwarmAuth.Lib.Wildcard

/-!
# Attenuation

What a token grants, and the rules under which a child narrows its parent: capability
coverage, limits, pins, audience and lifetime, as `_assert_attenuated` checks them.

## Main definitions

* `capabilityCovered`, `limitIsWider` — coverage of capabilities and of limits.
* `checkCapability`, `checkParams` — the checks on a call.
* `assertConstraintsNotWider`, `assertAttenuated` — the checks on a child.
* `NotWider`, `Attenuated` — what these checks establish.
* `attenuation_narrows` — a child's calls are its parent's, and narrowing composes.
-/
namespace SwarmAuth.Python

/-- `capability` is equal to or narrower than some entry of `granted`; `:` is 58, `*` 42. -/
def capabilityCovered (capability : Units) (granted : List Units) : Bool :=
  Wildcard.coveredBy 58 42 capability granted

/-- `a > b` on numbers. -/
def Scalar.gt (a b : Scalar) : Bool :=
  match a.denote, b.denote with
  | some (.inl x), some (.inl y) => y < x
  | some (.inl _), some (.inr neg) => neg
  | some (.inr neg), some (.inl _) => !neg
  | some (.inr m), some (.inr n) => !m && n
  | _, _ => false

/-- `math.isfinite`. -/
def Scalar.isFinite (a : Scalar) : Bool :=
  match a.denote with
  | some (.inl _) => true
  | _ => false

/-- The child limit allows more than the parent limit; `None` is unlimited. -/
def limitIsWider (child parent : Option Scalar) : Bool :=
  match parent, child with
  | none, _ => false
  | some _, none => true
  | some p, some c => !c.isFinite || c.gt p

/-- The numeric limits under their names. -/
def ConstraintFields.limits (c : ConstraintFields) : List (String × Option Scalar) :=
  [("max_calls", c.maxCalls.map .int), ("max_amount_usd", c.maxAmountUsd.map .float),
    ("rate_limit_per_min", c.rateLimitPerMin.map .int)]

/-- `params` pins `key` to a value equal to `expected`. -/
def pins (params : Dict) (key : Units) (expected : Value) : Bool :=
  match params.get? key with
  | some v => jsonValueEqual v expected
  | none => false

/-- `_assert_constraints_not_wider`. -/
def assertConstraintsNotWider (parent child : Constraints) : Outcome Unit := do
  raiseIf (parent.sharedBudget ≠ none ∧ child.sharedBudget ≠ parent.sharedBudget)
    (.of .delegation [.text "Attenuated token drops or changes shared budget"])
  forM (parent.limits.zip child.limits) fun l =>
    raiseIf (limitIsWider l.2.2 l.1.2)
      (.of .delegation [.text "Attenuated ", .text l.1.1, .text " widens the parent limit"])
  forM parent.allowedParams fun m =>
    raiseIf (!pins child.allowedParams m.1 m.2)
      (.of .delegation [.text "Attenuated token drops or changes pinned parameter '", .str m.1,
        .text "'"])

/-- The truth value of an optional string. -/
def truthy : Option Units → Bool
  | some s => s ≠ []
  | none => false

/-- `_assert_attenuated`. -/
def assertAttenuated (parent child : CapabilityClaims) : Outcome Unit := do
  raiseIf (parent.jti = child.jti) (.of .delegation [.text "Parent and child token IDs must differ"])
  raiseIf (truthy parent.prf) (.of .delegation [.text "Only one delegation hop is allowed"])
  raiseIf (!truthy parent.dlg || parent.dlg ≠ some child.iss)
    (.of .delegation [.text "Parent token does not authorize '", .str child.iss,
      .text "' to attenuate it"])
  raiseIf (truthy child.dlg)
    (.of .delegation [.text "An attenuated token cannot itself be delegated further"])
  raiseIf (child.sub ≠ parent.sub)
    (.of .delegation [.text "Attenuated token retargets audience from '", .str parent.sub,
      .text "' to '", .str child.sub, .text "'"])
  raiseIf (child.iat < parent.iat ∨ child.exp > parent.exp)
    (.of .delegation [.text "Attenuated token lifetime is outside the parent token's lifetime"])
  forM child.capabilities fun capability =>
    raiseIf (!capabilityCovered capability parent.capabilities)
      (.of .delegation [.text "Attenuated capability '", .str capability,
        .text "' exceeds the parent grant"])
  assertConstraintsNotWider parent.constraints child.constraints

/-- `check_capability`. -/
def checkCapability (claims : CapabilityClaims) (required : Units) : Outcome Unit :=
  if capabilityCovered required claims.capabilities then .ok ()
  else .error (.swarmAuth .capabilityViolation
    [.text "Token does not grant capability '", .str required, .text "'"] none (some required)
    claims.capabilities)

/-- `check_params`. -/
def checkParams (claims : CapabilityClaims) (params : Dict) : Outcome Unit :=
  forM claims.constraints.allowedParams fun m =>
    raiseIf (!pins params m.1 m.2)
      (constraintViolation [.text "Parameter '", .str m.1, .text "'=",
        .repr ((params.get? m.1).getD .none), .text " does not match required value ", .repr m.2]
        "allowed_params").formatted

/-! ## What the checks establish -/

theorem pins_iff {params : Dict} {key : Units} {expected : Value} :
    pins params key expected = true ↔
      ∃ v, params.get? key = some v ∧ jsonValueEqual v expected = true := by
  unfold pins
  cases params.get? key <;> simp

theorem checkCapability_ok {claims : CapabilityClaims} {required : Units} :
    checkCapability claims required = .ok () ↔
      capabilityCovered required claims.capabilities = true := by
  unfold checkCapability
  split_ifs with h <;> simp [h]

theorem checkParams_ok {claims : CapabilityClaims} {params : Dict} :
    checkParams claims params = .ok () ↔
      ∀ m ∈ claims.constraints.allowedParams, pins params m.1 m.2 = true := by
  simp [checkParams, forM_eq_ok]

/-- The constraints of `child` are no wider than those of `parent`. -/
structure NotWider (parent child : ConstraintFields) : Prop where
  sharedBudget : parent.sharedBudget ≠ none → child.sharedBudget = parent.sharedBudget
  maxCalls : limitIsWider (child.maxCalls.map .int) (parent.maxCalls.map .int) = false
  maxAmountUsd :
    limitIsWider (child.maxAmountUsd.map .float) (parent.maxAmountUsd.map .float) = false
  rateLimitPerMin :
    limitIsWider (child.rateLimitPerMin.map .int) (parent.rateLimitPerMin.map .int) = false
  pinned : ∀ m ∈ parent.allowedParams, pins child.allowedParams m.1 m.2 = true

theorem assertConstraintsNotWider_ok {parent child : Constraints} :
    assertConstraintsNotWider parent child = .ok () ↔
      NotWider parent.toConstraintFields child.toConstraintFields := by
  rw [assertConstraintsNotWider, raiseIf_bind_eq_ok, forM_bind_eq_ok, forM_eq_ok]
  simp only [ConstraintFields.limits, List.zip_cons_cons, List.zip_nil_right, List.forall_mem_cons,
    raiseIf_eq_ok, not_and, not_not, Bool.not_eq_true, Bool.not_eq_false', List.not_mem_nil,
    false_imp_iff, implies_true, and_true]
  constructor
  · rintro ⟨hbudget, ⟨hcalls, hamount, hrate⟩, hpins⟩
    exact ⟨hbudget, hcalls, hamount, hrate, hpins⟩
  · rintro ⟨hbudget, hcalls, hamount, hrate, hpins⟩
    exact ⟨hbudget, ⟨hcalls, hamount, hrate⟩, hpins⟩

/-- What `assertAttenuated` establishes of a parent and a child. -/
structure Attenuated (parent child : CapabilityClaims) : Prop where
  jti_ne : parent.jti ≠ child.jti
  parent_root : truthy parent.prf = false
  delegate : truthy parent.dlg = true ∧ parent.dlg = some child.iss
  child_leaf : truthy child.dlg = false
  sub_eq : child.sub = parent.sub
  iat_le : parent.iat ≤ child.iat
  exp_le : child.exp ≤ parent.exp
  covered : ∀ c ∈ child.capabilities, capabilityCovered c parent.capabilities = true
  notWider : NotWider parent.constraints.toConstraintFields child.constraints.toConstraintFields

theorem assertAttenuated_ok {parent child : CapabilityClaims} :
    assertAttenuated parent child = .ok () ↔ Attenuated parent child := by
  simp only [assertAttenuated, raiseIf_bind_eq_ok, forM_bind_eq_ok, assertConstraintsNotWider_ok,
    raiseIf_eq_ok, Bool.or_eq_true, Bool.not_eq_true', decide_eq_true_eq, not_or, not_not,
    Bool.not_eq_true, Bool.not_eq_false, not_lt]
  constructor
  · rintro ⟨hjti, hprf, hdlg, hleaf, hsub, hlife, hcap, hcon⟩
    exact ⟨hjti, hprf, hdlg, hleaf, hsub, hlife.1, hlife.2, hcap, hcon⟩
  · rintro ⟨hjti, hprf, hdlg, hleaf, hsub, hiat, hexp, hcap, hcon⟩
    exact ⟨hjti, hprf, hdlg, hleaf, hsub, ⟨hiat, hexp⟩, hcap, hcon⟩

/-! ## Limits -/

theorem limitIsWider_int {child parent : Option ℤ} :
    limitIsWider (child.map .int) (parent.map .int) = false ↔
      ∀ p, parent = some p → ∃ c, child = some c ∧ c ≤ p := by
  cases parent <;> cases child <;>
    simp [limitIsWider, Scalar.isFinite, Scalar.gt, Scalar.denote]

/-- The number `a` is at most `b`. -/
def numberLe (a b : Scalar) : Prop :=
  ∃ x y, a.denote = some (.inl x) ∧ b.denote = some (.inl y) ∧ x ≤ y

theorem numberLe_trans {a b c : Scalar} (hab : numberLe a b) (hbc : numberLe b c) : numberLe a c := by
  obtain ⟨x, y, hx, hy, hxy⟩ := hab
  obtain ⟨y', z, hy', hz, hyz⟩ := hbc
  rw [hy] at hy'
  simp only [Option.some.injEq, Sum.inl.injEq] at hy'
  exact ⟨x, z, hx, hz, hxy.trans (hy' ▸ hyz)⟩

/-- Below a finite limit stands a finite limit that is no larger. -/
theorem limitIsWider_number {child parent : Option Scalar} (h : limitIsWider child parent = false)
    {p : Scalar} (hp : parent = some p) (hfin : p.isFinite = true) :
    ∃ c, child = some c ∧ numberLe c p := by
  subst hp
  cases child with
  | none => simp [limitIsWider] at h
  | some c =>
      refine ⟨c, rfl, ?_⟩
      simp only [limitIsWider, Bool.or_eq_false_iff, Bool.not_eq_false'] at h
      revert h hfin
      simp only [Scalar.isFinite, Scalar.gt, numberLe]
      rcases c.denote with _ | (x | m) <;> rcases p.denote with _ | (y | n) <;> simp

theorem limitIsWider_float {child : Option Double} {parent : Option Scalar}
    (h : limitIsWider (child.map .float) parent = false) {p : Scalar} (hp : parent = some p)
    (hfin : p.isFinite = true) : ∃ c, child = some c ∧ numberLe (.float c) p := by
  obtain ⟨c, hc, hle⟩ := limitIsWider_number h hp hfin
  obtain ⟨d, hd, rfl⟩ := Option.map_eq_some_iff.mp hc
  exact ⟨d, hd, hle⟩

theorem isFinite_of_nonNegative {d : Double} (h : nonNegative d = true) :
    (Scalar.float d).isFinite = true := by
  cases d <;> simp_all [nonNegative, Double.value?, Scalar.isFinite, Scalar.denote, Double.denote]

theorem limitIsWider_trans {a b c : Option Scalar} (hab : limitIsWider b a = false)
    (hbc : limitIsWider c b = false) : limitIsWider c a = false := by
  cases a with
  | none => rfl
  | some a =>
      cases b with
      | none => simp [limitIsWider] at hab
      | some b =>
          cases c with
          | none => simp [limitIsWider] at hbc
          | some c =>
              simp only [limitIsWider, Bool.or_eq_false_iff, Bool.not_eq_false'] at hab hbc ⊢
              refine ⟨hbc.1, ?_⟩
              revert hab hbc
              simp only [Scalar.isFinite, Scalar.gt]
              rcases a.denote with _ | (x | m) <;> rcases b.denote with _ | (y | n) <;>
                rcases c.denote with _ | (z | k) <;> simp
              · exact fun hyx hzy => hzy.trans hyx
              · exact fun hm _ => hm

/-- The limits of `child` include those of `parent`, none of them larger. -/
def LimitsWithin (parent child : ConstraintFields) : Prop :=
  (∀ p, parent.maxCalls = some p → ∃ c, child.maxCalls = some c ∧ c ≤ p) ∧
    (∀ p, parent.maxAmountUsd = some p →
      ∃ c, child.maxAmountUsd = some c ∧ numberLe (.float c) (.float p)) ∧
    (∀ p, parent.rateLimitPerMin = some p → ∃ c, child.rateLimitPerMin = some c ∧ c ≤ p) ∧
    (∀ p, parent.sharedBudget = some p → child.sharedBudget = some p)

theorem Constraints.amount_nonNegative (c : Constraints) {d : Double} (hd : c.maxAmountUsd = some d) :
    nonNegative d = true := by
  have h := c.valid
  simp only [ConstraintFields.valid, Bool.and_eq_true] at h
  simpa [hd] using h.1.1.1.1.2

theorem NotWider.limitsWithin {parent child : Constraints}
    (h : NotWider parent.toConstraintFields child.toConstraintFields) :
    LimitsWithin parent.toConstraintFields child.toConstraintFields := by
  refine ⟨limitIsWider_int.mp h.maxCalls, fun p hp => ?_, limitIsWider_int.mp h.rateLimitPerMin,
    fun p hp => ?_⟩
  · exact limitIsWider_float h.maxAmountUsd (by rw [hp]; rfl)
      (isFinite_of_nonNegative (parent.amount_nonNegative hp))
  · rw [h.sharedBudget (by simp [hp]), hp]

/-! ## Narrowing -/

theorem capabilityCovered_trans {narrow wide : List Units} {r : Units}
    (h : ∀ c ∈ narrow, capabilityCovered c wide = true) (hr : capabilityCovered r narrow = true) :
    capabilityCovered r wide = true :=
  Wildcard.coveredBy_trans (by decide) h hr

theorem pins_trans {narrow wide params : Dict} (h : ∀ m ∈ wide, pins narrow m.1 m.2 = true)
    (hp : ∀ m ∈ narrow, pins params m.1 m.2 = true) : ∀ m ∈ wide, pins params m.1 m.2 = true := by
  intro m hm
  obtain ⟨v, hv, hvm⟩ := pins_iff.mp (h m hm)
  obtain ⟨w, hw, hwv⟩ := pins_iff.mp (hp _ (Dict.mem_of_get? hv))
  exact pins_iff.mpr ⟨w, hw, jsonValueEqual_trans hwv hvm⟩

theorem NotWider.trans {a b c : ConstraintFields} (hab : NotWider a b) (hbc : NotWider b c) :
    NotWider a c where
  sharedBudget ha := by
    have hb := hab.sharedBudget ha
    rw [hbc.sharedBudget (by rwa [hb]), hb]
  maxCalls := limitIsWider_trans hab.maxCalls hbc.maxCalls
  maxAmountUsd := limitIsWider_trans hab.maxAmountUsd hbc.maxAmountUsd
  rateLimitPerMin := limitIsWider_trans hab.rateLimitPerMin hbc.rateLimitPerMin
  pinned := pins_trans hab.pinned hbc.pinned

/-- **Attenuation never amplifies authority**: every capability and every parameter
mapping a child passes, its parent passes; its limits and its lifetime lie inside the
parent's; and narrowing of capability lists and of constraints composes. -/
theorem attenuation_narrows :
    (∀ parent child : CapabilityClaims, assertAttenuated parent child = .ok () →
      (∀ required, checkCapability child required = .ok () →
        checkCapability parent required = .ok ()) ∧
      (∀ params, checkParams child params = .ok () → checkParams parent params = .ok ()) ∧
      LimitsWithin parent.constraints.toConstraintFields child.constraints.toConstraintFields ∧
      parent.iat ≤ child.iat ∧ child.exp ≤ parent.exp) ∧
    (∀ a b c : List Units, (∀ x ∈ b, capabilityCovered x a = true) →
      (∀ x ∈ c, capabilityCovered x b = true) → ∀ x ∈ c, capabilityCovered x a = true) ∧
    (∀ a b c : Constraints, assertConstraintsNotWider a b = .ok () →
      assertConstraintsNotWider b c = .ok () → assertConstraintsNotWider a c = .ok ()) := by
  refine ⟨fun parent child h => ?_, fun a b c hab hbc x hx => ?_, fun a b c hab hbc => ?_⟩
  · have hatt := assertAttenuated_ok.mp h
    refine ⟨fun required hr => ?_, fun params hp => ?_, hatt.notWider.limitsWithin, hatt.iat_le,
      hatt.exp_le⟩
    · rw [checkCapability_ok] at hr ⊢
      exact capabilityCovered_trans hatt.covered hr
    · rw [checkParams_ok] at hp ⊢
      exact pins_trans hatt.notWider.pinned hp
  · exact capabilityCovered_trans hab (hbc x hx)
  · rw [assertConstraintsNotWider_ok] at hab hbc ⊢
    exact hab.trans hbc

/-- A parent that pins the recipient, and its child, which pins the subject too. -/
def sampleNarrowed (child : Bool) : CapabilityClaims :=
  if child then
    ⟨{ iss := "helper", sub := "server", capabilities := ["mail:send:*"], iat := 1001, exp := 1009,
       jti := "j2", prf := some (lit "x"),
       constraints := ⟨{ maxCalls := some 1, allowedParams :=
         [(lit "to", .str "bob"), (lit "subject", .str "hi")] }, by decide +kernel, by decide⟩ },
      by decide⟩
  else
    ⟨{ iss := "agent", sub := "server", capabilities := ["mail:*"], iat := 1000, exp := 1010,
       jti := "j1", dlg := some (lit "helper"),
       constraints := ⟨{ maxCalls := some 2, allowedParams := [(lit "to", .str "bob")] },
         by decide +kernel, by decide⟩ },
      by decide⟩

theorem attenuation_narrows_sample :
    checkCapability (sampleNarrowed false) (lit "mail:send:draft") = .ok () ∧
      checkParams (sampleNarrowed false) [(lit "to", .str "bob"), (lit "subject", .str "hi")] = .ok () ∧
      capabilityCovered (lit "mail:send:draft") [lit "mail:*"] = true ∧
      assertConstraintsNotWider (sampleNarrowed false).constraints (sampleNarrowed true).constraints =
        .ok () := by
  obtain ⟨hchild, hcapabilities, hconstraints⟩ := attenuation_narrows
  obtain ⟨hrequired, hparams, -⟩ := hchild (sampleNarrowed false) (sampleNarrowed true)
    (by decide +kernel)
  exact ⟨hrequired _ (by decide +kernel), hparams _ (by decide +kernel),
    hcapabilities [lit "mail:*"] [lit "mail:send:*"] [lit "mail:send:draft"] (by decide +kernel)
      (by decide +kernel) _ (List.mem_singleton_self _),
    hconstraints _ (sampleNarrowed false).constraints _ (by decide +kernel) (by decide +kernel)⟩

end SwarmAuth.Python
