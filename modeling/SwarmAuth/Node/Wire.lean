import SwarmAuth.Node.Token
import SwarmAuth.Node.Patterns
import SwarmAuth.Lib.JsonEquality

/-!
# The payload Node signs

`claimsWire` encodes the claims and then rewrites the constraints in that text with
`String.prototype.replace`, whose replacement has patterns of its own. The claims are those
a caller gave: nothing here looks at their types.

## Main definitions

* `stringText` — `String(value)`.
* `emptyConstraintsObject`, `constraintsWire`, `claimsWire`, `signToken` — the functions.
* `ValidClaims`, `validClaims_of` — what the validator leaves of claims whose arrays are whole.
* `wireOf`, `canon_wireBody` — the values that are written.
* `claimsWire_expand`, `claimsWire_eq` — the text of claims, and of those without patterns.
-/
namespace SwarmAuth.Node

open Js

/-! ## Values as strings -/

/-- `Boolean(value)`. -/
def truthyValue : Value → Bool
  | .scalar .null | .scalar .undefined => false
  | .scalar (.bool b) => b
  | .scalar (.number d) => d ≠ .nan && d.value? ≠ some 0
  | .str s => s ≠ []
  | _ => true

/-- `value ?? fallback`. -/
def orElse (value fallback : Value) : Value := if value.isNullish then fallback else value

/-- `String(value)` of a value without parts; those JSON has not are refused before. -/
def stringScalar : Scalar → Outcome Units
  | .null => .ok (lit "null")
  | .undefined => .ok (lit "undefined")
  | .bool b => .ok (if b then lit "true" else lit "false")
  | .number d => .ok ((numberText d).map UInt16.ofNat)
  | .hole => .ok []
  | .other => .error (.typeError "Cannot convert a value to a string")

/-- `String(value)`, and whether an array leaves the value out. An object that has an own
`toString` has none that can be called. -/
def stringParts : Value → Bool × Outcome Units :=
  Json.Tree.fold (fun w => (Value.isNullish (.scalar w), stringScalar w)) (fun s => (false, .ok s))
    (fun items => (false, do
      let parts ← items.mapM fun item => if item.1 then .ok [] else item.2
      return [44].intercalate parts))
    fun members => (false,
      if members.any fun m => m.1 = lit "toString" then
        .error (.typeError "Cannot convert object to primitive value")
      else .ok (lit "[object Object]"))

/-- `String(value)`. -/
def stringText (value : Value) : Outcome Units := (stringParts value).2

/-! ## The payload -/

/-- `emptyConstraints`. -/
def emptyConstraintsObject (limits : Object) : Object :=
  [(lit "allowed_params", orElse (limits.get "allowed_params") (.obj [])),
    (lit "max_amount_usd", orElse (limits.get "max_amount_usd") .null),
    (lit "max_calls", orElse (limits.get "max_calls") .null),
    (lit "rate_limit_per_min", orElse (limits.get "rate_limit_per_min") .null)] ++
    if (limits.get "shared_budget").isNullish then []
    else [(lit "shared_budget", limits.get "shared_budget")]

/-- The text of `max_amount_usd`. -/
def amountWire (value : Value) : Outcome (List ℕ) :=
  if value.isNullish then .ok (Json.codes "null")
  else
    match value with
    | .scalar (.number d) => formatAmount d
    | _ => .error (.swarmAuth "CONSTRAINT_VIOLATION" "max_amount_usd must be finite")

/-- The text of a count. -/
def countWire (value : Value) : Outcome (List ℕ) := do
  if value.isNullish then return Json.codes "null"
  let text ← stringText value
  return text.map UInt16.toNat

/-- The text of `shared_budget`, with its comma. -/
def budgetWire (value : Value) : Outcome (List ℕ) := do
  if value.isNullish then return []
  let text ← encode value
  return Json.codes ",\"shared_budget\":" ++ text

/-- `constraintsWire`. -/
def constraintsWire (constraints : Object) : Outcome (List ℕ) := do
  let amount ← amountWire (constraints.get "max_amount_usd")
  let calls ← countWire (constraints.get "max_calls")
  let rate ← countWire (constraints.get "rate_limit_per_min")
  let budget ← budgetWire (constraints.get "shared_budget")
  let allowed ← encode (orElse (constraints.get "allowed_params") (.obj []))
  return [123] ++ Json.codes "\"allowed_params\":" ++ allowed ++
    Json.codes ",\"max_amount_usd\":" ++ amount ++ Json.codes ",\"max_calls\":" ++ calls ++
    Json.codes ",\"rate_limit_per_min\":" ++ rate ++ budget ++ [125]

/-- A member that is there when its value is truthy. -/
def truthyMember (claims : Object) (key : Units) : Object :=
  if truthyValue (claims.get key) then [(key, claims.get key)] else []

/-- The object that is encoded. -/
def wireBody (claims : Object) : Object :=
  [(lit "capabilities", claims.get "capabilities"), (lit "constraints", claims.get "constraints"),
    (lit "exp", claims.get "exp"), (lit "iat", claims.get "iat"), (lit "iss", claims.get "iss"),
    (lit "jti", claims.get "jti"), (lit "sub", claims.get "sub")] ++
    truthyMember claims (lit "dlg") ++ truthyMember claims (lit "prf")

/-- `claimsWire`, in UTF-16 units. -/
def claimsWire (claims : Object) : Outcome (List ℕ) := do
  let encoded ← encode (.obj (wireBody claims))
  let old ← encode (claims.get "constraints")
  let new ← constraintsWire (objectOr (claims.get "constraints"))
  return replace encoded (Json.codes "\"constraints\":" ++ old) (Json.codes "\"constraints\":" ++ new)

/-- `Buffer.from(text)`: UTF-8, with `U+FFFD` for unpaired surrogates. -/
def bufferFrom (text : List ℕ) : Bytes :=
  utf8Encode ((codePoints (text.map UInt16.ofNat)).map fun c =>
    if 0xD800 ≤ c ∧ c < 0xE000 then 0xFFFD else c)

/-- `signToken`, with a key's signature and the key. -/
def signToken (sign : Bytes → Bytes) (publicKey : Bytes) (claims : Object) : Outcome Units := do
  let header ← canonicalJson (.obj [(lit "alg", .str (lit "EdDSA")),
    (lit "kid", .str (b64urlEncode publicKey)), (lit "typ", .str (lit "JCT"))])
  let payload ← claimsWire claims
  let signingInput := b64urlEncode (bufferFrom header) ++ [46] ++ b64urlEncode (bufferFrom payload)
  return signingInput ++ [46] ++
    b64urlEncode (sign (bufferFrom (signingInput.map UInt16.toNat)))

/-! ## Valid claims -/

/-- A value that is `null` or absent, or a number. -/
inductive Numeric : Value → Prop
  | null : Numeric .null
  | undefined : Numeric .undefined
  | number (d : Double) (h : isFinite d = true) : Numeric (.scalar (.number d))

/-- A value that is `null` or absent, or a non-empty string. -/
inductive Textual : Value → Prop
  | null : Textual .null
  | undefined : Textual .undefined
  | str (s : Units) (h : s ≠ []) : Textual (.str s)

/-- What the validator leaves of constraints. -/
structure ValidLimits (limits : Object) : Prop where
  maxCalls : Numeric (limits.get "max_calls")
  maxAmountUsd : Numeric (limits.get "max_amount_usd")
  rateLimitPerMin : Numeric (limits.get "rate_limit_per_min")
  allowedParams : limits.get "allowed_params" = .undefined ∨
    ∃ pins, limits.get "allowed_params" = .obj pins ∧
      (Json.Tree.obj pins : Value).allScalars validScalar = true
  sharedBudget : Textual (limits.get "shared_budget")
  budgetPin : ∀ s, limits.get "shared_budget" = .str s →
    (objectOr (limits.get "allowed_params")).get "budget_id" = .str s

/-- The pins of claims. -/
def pinsOf (claims : Object) : Value :=
  orElse ((objectOr (claims.get "constraints")).get "allowed_params") (.obj [])

/-- Neither the capabilities nor an array of the pins has a hole. -/
def wholeArrays (claims : Object) : Bool := (claims.get "capabilities").whole && (pinsOf claims).whole

/-- What the validator leaves of claims whose arrays are whole. -/
structure ValidClaims (claims : Object) : Prop where
  iss : ∃ s, claims.get "iss" = .str s
  sub : ∃ s, claims.get "sub" = .str s
  jti : ∃ s, claims.get "jti" = .str s
  capabilities : ∃ ss : List Units, claims.get "capabilities" = .arr (ss.map .str)
  iat : ∃ d, claims.get "iat" = .scalar (.number d) ∧ isFinite d = true
  exp : ∃ d, claims.get "exp" = .scalar (.number d) ∧ isFinite d = true
  dlg : Textual (claims.get "dlg")
  prf : Textual (claims.get "prf")
  constraints : ValidLimits (objectOr (claims.get "constraints"))
  pins : (pinsOf claims).allScalars portable = true

theorem textual_of {value : Value} (h : value.isNullish = true ∨ nonEmptyString value = true) :
    Textual value := by
  cases value with
  | scalar w =>
      cases w with
      | null => exact .null
      | undefined => exact .undefined
      | _ => rcases h with h | h <;> cases h
  | str s =>
      rcases h with h | h
      · cases h
      · exact .str s (by simpa [nonEmptyString] using h)
  | arr items => rcases h with h | h <;> cases h
  | obj members => rcases h with h | h <;> cases h

theorem numeric_of_validCount {value : Value} (h : validCount value = true) : Numeric value := by
  cases value with
  | scalar w =>
      cases w with
      | null => exact .null
      | undefined => exact .undefined
      | number d =>
          have hsafe : isSafeInteger d = true := by
            have hnullish : Value.isNullish (.scalar (.number d)) = false := rfl
            rw [validCount, hnullish, Bool.false_or, Bool.and_eq_true] at h
            exact h.1
          exact .number d (isFinite_of_isSafeInteger hsafe)
      | _ => cases h
  | _ => cases h

theorem numeric_of_validAmount {value : Value} (h : validAmount value = true) : Numeric value := by
  cases value with
  | scalar w =>
      cases w with
      | null => exact .null
      | undefined => exact .undefined
      | number d =>
          have hnullish : Value.isNullish (.scalar (.number d)) = false := rfl
          rw [validAmount, hnullish, Bool.false_or, Bool.and_eq_true] at h
          exact .number d h.1
      | _ => cases h
  | _ => cases h

theorem validLimits_of {limits : Object} (h : validateConstraints limits = .ok ()) :
    ValidLimits limits := by
  simp only [validateConstraints, raiseIf_bind_eq_ok, raiseIf_eq_ok, Bool.not_eq_true',
    Bool.not_eq_false] at h
  obtain ⟨-, hcalls, hrate, hamount, hpins, hbudget⟩ := h
  refine ⟨numeric_of_validCount hcalls, numeric_of_validAmount hamount, numeric_of_validCount hrate,
    ?_, textual_of ?_, fun s hs => ?_⟩
  · cases hlookup : limits.lookup (lit "allowed_params") with
    | none => exact Or.inl (by rw [Object.get, hlookup]; rfl)
    | some pins =>
        have hget : limits.get "allowed_params" = pins := by rw [Object.get, hlookup]; rfl
        have hown : limits.hasOwn "allowed_params" = true := by rw [Object.hasOwn, hlookup]; rfl
        rw [hget, hown] at hpins
        simp only [Bool.true_and, Bool.or_eq_true, Bool.not_eq_true', not_or, Bool.not_eq_false] at hpins
        obtain ⟨hobject, hvalid⟩ := hpins
        cases pins with
        | obj pins => exact Or.inr ⟨pins, hget, hvalid⟩
        | _ => cases hobject
  · simp only [Bool.and_eq_true, Bool.not_eq_true', not_and, Bool.not_eq_false] at hbudget
    by_cases hnull : (limits.get "shared_budget").isNullish = true
    · exact Or.inl hnull
    · have hpinned := hbudget (Bool.eq_false_iff.mpr hnull)
      simp only [budgetPins, Bool.and_eq_true] at hpinned
      exact Or.inr hpinned.1.1.1.1
  · rw [hs] at hbudget
    have hpinned : budgetPins (.str s) (objectOr (limits.get "allowed_params")) = true := by
      simpa [Value.isNullish] using hbudget
    simp only [budgetPins, Bool.and_eq_true, decide_eq_true_eq] at hpinned
    exact hpinned.1.1.1.2

/-- What validation leaves of the constraints of claims. -/
theorem limits_of_valid {claims : Object} (h : validateObject claims = .ok ()) :
    ValidLimits (objectOr (claims.get "constraints")) := by
  simp only [validateObject, raiseIf_bind_eq_ok] at h
  obtain ⟨-, -, -, hconstraints⟩ := h
  cases hc : claims.get "constraints" with
  | obj limits =>
      rw [hc] at hconstraints
      exact validLimits_of hconstraints
  | scalar w =>
      rw [hc] at hconstraints
      cases w with
      | undefined => exact validLimits_of hconstraints
      | _ => cases hconstraints
  | _ =>
      rw [hc] at hconstraints
      cases hconstraints

/-- Valid pins without a hole are JSON. -/
theorem ValidLimits.portable_pins {limits : Object} (h : ValidLimits limits)
    (hwhole : (orElse (limits.get "allowed_params") (.obj [])).whole = true) :
    (orElse (limits.get "allowed_params") (.obj [])).allScalars portable = true := by
  rcases h.allowedParams with hnone | ⟨pins, hpins, hvalid⟩
  · rw [hnone]
    rfl
  · have hsame : orElse (limits.get "allowed_params") (.obj []) = .obj pins := by
      rw [hpins]
      rfl
    rw [hsame, Value.whole] at hwhole
    rw [hsame]
    refine Json.Tree.allScalars_mono (fun w hw => ?_) (Json.Tree.allScalars_and hvalid hwhole)
    obtain ⟨hvalid, hhole⟩ := Bool.and_eq_true_iff.mp hw
    exact portable_of_validScalar hvalid (of_decide_eq_true hhole)

theorem Textual.truthy {value : Value} (h : Textual value) : truthyValue value = !value.isNullish := by
  cases h with
  | null => rfl
  | undefined => rfl
  | str s hs => exact decide_eq_true hs

/-- The delegation claims of validated claims are strings that are not empty, where they are set. -/
theorem textual_of_valid {claims : Object} (h : validateObject claims = .ok ()) :
    Textual (claims.get "dlg") ∧ Textual (claims.get "prf") := by
  simp only [validateObject, raiseIf_bind_eq_ok] at h
  obtain ⟨-, hdlg, hprf, -⟩ := h
  have htext : ∀ {value : Value}, ¬ (!value.isNullish && !nonEmptyString value) = true →
      Textual value := by
    intro value hvalue
    refine textual_of ?_
    by_cases hnull : value.isNullish = true
    · exact Or.inl hnull
    · simp only [Bool.eq_false_iff.mpr hnull, Bool.not_false, Bool.true_and, Bool.not_eq_true',
        Bool.not_eq_false] at hvalue
      exact Or.inr hvalue
  exact ⟨htext hdlg, htext hprf⟩

/-- The delegation claims are strings that are not empty, where they are set. -/
def WellSet (claims : Object) : Prop := ∀ key, key = lit "dlg" ∨ key = lit "prf" →
  truthyValue (claims.get key) = !(claims.get key).isNullish

theorem ValidClaims.set {claims : Object} (h : ValidClaims claims) : WellSet claims := by
  rintro key (rfl | rfl)
  · exact h.dlg.truthy
  · exact h.prf.truthy

theorem set_of_valid {claims : Object} (h : validateObject claims = .ok ()) : WellSet claims := by
  obtain ⟨hdlg, hprf⟩ := textual_of_valid h
  rintro key (rfl | rfl)
  · exact hdlg.truthy
  · exact hprf.truthy

theorem str_of_nonEmptyString {value : Value} (h : nonEmptyString value = true) :
    ∃ s, value = .str s := by
  cases value with
  | str s => exact ⟨s, rfl⟩
  | _ => cases h

/-- Issuer and audience of validated claims are strings. -/
theorem names_of_valid {claims : Object} (h : validateObject claims = .ok ()) :
    (∃ s, claims.get "iss" = .str s) ∧ ∃ s, claims.get "sub" = .str s := by
  simp only [validateObject, raiseIf_bind_eq_ok, Bool.not_eq_true', Bool.not_eq_false] at h
  obtain ⟨hfields, -⟩ := h
  simp only [validFields, Bool.and_eq_true] at hfields
  obtain ⟨⟨⟨⟨⟨⟨⟨-, hiss⟩, hsub⟩, -⟩, -⟩, -⟩, -⟩, -⟩ := hfields
  exact ⟨str_of_nonEmptyString hiss, str_of_nonEmptyString hsub⟩

/-- The capabilities of validated claims are strings when none is missing. -/
theorem strings_of_valid {items : List Value}
    (h : items.all (fun item => item = Value.hole || nonEmptyString item) = true)
    (hwhole : (Json.Tree.arr items : Value).allScalars (· ≠ .hole) = true) :
    ∀ item ∈ items, nonEmptyString item = true := by
  intro item hitem
  rw [List.all_eq_true] at h
  rw [Json.Tree.allScalars_arr, List.all_eq_true] at hwhole
  rcases Bool.or_eq_true_iff.mp (h item hitem) with hhole | hstring
  · have hsome := hwhole item hitem
    rw [of_decide_eq_true hhole] at hsome
    exact absurd hsome (by decide)
  · exact hstring

/-- **What validation leaves of claims.** -/
theorem validClaims_of {claims : Object} (h : validateObject claims = .ok ())
    (hwhole : wholeArrays claims = true) : ValidClaims claims := by
  have hlimits := limits_of_valid h
  obtain ⟨hdlg, hprf⟩ := textual_of_valid h
  rw [wholeArrays, Bool.and_eq_true] at hwhole
  simp only [validateObject, raiseIf_bind_eq_ok, Bool.not_eq_true', Bool.not_eq_false] at h
  obtain ⟨hfields, -⟩ := h
  simp only [validFields, Bool.and_eq_true] at hfields
  obtain ⟨⟨⟨⟨⟨⟨⟨-, hiss⟩, hsub⟩, hjti⟩, hcapabilities⟩, hiat⟩, hexp⟩, -⟩ := hfields
  have hnumber : ∀ {value : Value}, safeInteger value = true →
      ∃ d, value = .scalar (.number d) ∧ isFinite d = true := by
    intro value hvalue
    cases value with
    | scalar w =>
        cases w with
        | number d => exact ⟨d, rfl, isFinite_of_isSafeInteger hvalue⟩
        | _ => cases hvalue
    | _ => cases hvalue
  refine ⟨str_of_nonEmptyString hiss, str_of_nonEmptyString hsub, str_of_nonEmptyString hjti, ?_, hnumber hiat, hnumber hexp, hdlg, hprf, hlimits,
    hlimits.portable_pins hwhole.2⟩
  · have hcapabilitiesWhole := hwhole.1
    generalize claims.get "capabilities" = value at hcapabilities hcapabilitiesWhole ⊢
    cases value with
    | arr items =>
        rw [Bool.and_eq_true] at hcapabilities
        have hstrings := strings_of_valid hcapabilities.2 hcapabilitiesWhole
        refine ⟨items.filterMap stringOf, ?_⟩
        have hitems : ∀ items : List Value, (∀ t ∈ items, nonEmptyString t = true) →
            items = (items.filterMap stringOf).map .str := by
          intro items hall
          induction items with
          | nil => rfl
          | cons t items ih =>
              obtain ⟨s, rfl⟩ := str_of_nonEmptyString (hall t List.mem_cons_self)
              have hrest := ih fun u hu => hall u (List.mem_cons_of_mem _ hu)
              rw [List.filterMap_cons, stringOf, List.map_cons, ← hrest]
        rw [← hitems items hstrings]
    | _ => cases hcapabilities

/-! ## The text of valid claims -/

/-- `{ ...claims, constraints: emptyConstraints(claims.constraints) }`. -/
def withDefaults (claims : Object) : Object :=
  Json.Tree.upsert claims
    (lit "constraints", .obj (emptyConstraintsObject (objectOr (claims.get "constraints"))))

/-- The values that are written. -/
def wireOf (claims : Object) : WireClaims :=
  let limits := objectOr (claims.get "constraints")
  { capabilities := match claims.get "capabilities" with
      | .arr items => items.filterMap stringOf
      | _ => []
    allowedParams := (orElse (limits.get "allowed_params") (.obj [])).canon codePoints
    maxAmountUsd := orElse (limits.get "max_amount_usd") .null
    maxCalls := orElse (limits.get "max_calls") .null
    rateLimitPerMin := orElse (limits.get "rate_limit_per_min") .null
    sharedBudget := stringOf (limits.get "shared_budget")
    dlg := stringOf (claims.get "dlg")
    exp := claims.get "exp"
    iat := claims.get "iat"
    iss := (stringOf (claims.get "iss")).getD []
    jti := (stringOf (claims.get "jti")).getD []
    prf := stringOf (claims.get "prf")
    sub := (stringOf (claims.get "sub")).getD [] }

section Defaults
variable {claims : Object}

theorem get_withDefaults (key : Units) (hkey : key ≠ lit "constraints") :
    (withDefaults claims).get key = claims.get key := by
  rw [withDefaults, Object.get, Json.Tree.lookup_upsert, if_neg hkey]
  rfl

theorem get_constraints_withDefaults : (withDefaults claims).get "constraints" =
    .obj (emptyConstraintsObject (objectOr (claims.get "constraints"))) := by
  rw [withDefaults, Object.get, Json.Tree.lookup_upsert, if_pos rfl]
  rfl

theorem Numeric.orElse_eq {value : Value} (h : Numeric value) :
    orElse value .null = .null ∨ ∃ d, isFinite d = true ∧ value = .scalar (.number d) ∧
      orElse value .null = .scalar (.number d) := by
  cases h with
  | null => exact Or.inl rfl
  | undefined => exact Or.inl rfl
  | number d hd => exact Or.inr ⟨d, hd, rfl, rfl⟩

theorem valueText_null : WireClaims.valueText .null = Json.codes "null" := Json.render_scalar ..

/-- A count is written as its number is. -/
theorem countWire_numeric {value : Value} (h : Numeric value) :
    countWire (orElse value .null) = .ok (WireClaims.valueText (orElse value .null)) := by
  rcases h.orElse_eq with hnull | ⟨d, hd, -, hnumber⟩
  · rw [hnull, valueText_null]
    rfl
  · have hcodes : ((numberText d).map UInt16.ofNat).map UInt16.toNat = numberText d := by
      rw [List.map_map]
      refine (List.map_congr_left fun c hc => ?_).trans (List.map_id _)
      have hword := (reads_numberText hd).word c hc
      have hlt : c < 128 := by
        simp only [Json.isWordCode, Bool.or_eq_true, Bool.and_eq_true, decide_eq_true_eq] at hword
        omega
      rw [Function.comp_apply, UInt16.toNat_ofNat', id]
      omega
    have htext : WireClaims.valueText (.scalar (.number d)) = numberText d := Json.render_scalar ..
    rw [hnumber, htext, ← hcodes]
    rfl

/-- What is written for an amount. -/
def amountText : Value → List ℕ
  | .scalar (.number d) =>
      match formatAmount d with
      | .ok text => text
      | .error _ => []
  | _ => Json.codes "null"

theorem amountWire_numeric {value : Value} (h : Numeric value) :
    amountWire (orElse value .null) = .ok (amountText (orElse value .null)) := by
  rcases h.orElse_eq with hnull | ⟨d, hd, -, hnumber⟩
  · rw [hnull]
    rfl
  · have hnullish : Value.isNullish (.scalar (.number d)) = false := rfl
    have hformat : ∃ text, formatAmount d = .ok text := by
      cases d with
      | finite neg mag =>
          rw [formatAmount]
          split_ifs <;> exact ⟨_, rfl⟩
      | inf neg => cases hd
      | nan => cases hd
    obtain ⟨text, htext⟩ := hformat
    rw [hnumber, amountWire, hnullish, amountText, htext]
    rfl

/-- The scalar of an amount. -/
def amountScalar : Value → Scalar
  | .scalar w => w
  | _ => .null

/-- **What is written for an amount is read to it.** -/
theorem reads_amountText {value : Value} (h : Numeric value) :
    Reads (amountText (orElse value .null)) (unsigned (amountScalar (orElse value .null))) := by
  rcases h.orElse_eq with hnull | ⟨d, hd, -, hnumber⟩
  · rw [hnull]
    exact ⟨by decide, by decide, rfl⟩
  · rw [hnumber]
    cases d with
    | finite neg mag =>
        simp only [amountText, amountScalar, formatAmount]
        by_cases hwhole : isInteger (.finite neg mag) = true
        · rw [if_pos hwhole]
          by_cases hsmall : mag.value < 10 ^ 21
          · simpa [hsmall] using reads_whole hwhole
          · simpa [hsmall] using reads_numberText hd
        · rw [if_neg hwhole]
          exact reads_numberText hd
    | inf neg => cases hd
    | nan => cases hd

/-- Members that are looked for, of the constraints with their defaults. -/
theorem get_emptyConstraints (limits : Object) (h : Textual (limits.get "shared_budget")) :
    Object.get (emptyConstraintsObject limits) "allowed_params" =
        orElse (limits.get "allowed_params") (.obj []) ∧
      Object.get (emptyConstraintsObject limits) "max_amount_usd" =
        orElse (limits.get "max_amount_usd") .null ∧
      Object.get (emptyConstraintsObject limits) "max_calls" = orElse (limits.get "max_calls") .null ∧
      Object.get (emptyConstraintsObject limits) "rate_limit_per_min" =
        orElse (limits.get "rate_limit_per_min") .null ∧
      Object.get (emptyConstraintsObject limits) "shared_budget" =
        (stringOf (limits.get "shared_budget")).elim .undefined .str := by
  refine ⟨rfl, rfl, rfl, rfl, ?_⟩
  rw [emptyConstraintsObject]
  generalize limits.get "shared_budget" = budget at h ⊢
  cases h <;> rfl

/-- The constraints with their defaults, sorted. -/
theorem canon_emptyConstraints (h : ValidLimits (objectOr (claims.get "constraints"))) :
    (Json.Tree.obj (emptyConstraintsObject (objectOr (claims.get "constraints"))) : Value).canon
      codePoints = .obj (wireOf claims).constraints := by
  have hsort : Json.Tree.sortMembers codePoints [(lit "allowed_params", 0), (lit "max_amount_usd", 1),
      (lit "max_calls", 2), (lit "rate_limit_per_min", 3)] =
      [(lit "allowed_params", 0), (lit "max_amount_usd", 1), (lit "max_calls", 2),
        (lit "rate_limit_per_min", 3)] := by decide +kernel
  have hsort_budget : Json.Tree.sortMembers codePoints [(lit "allowed_params", 0),
      (lit "max_amount_usd", 1), (lit "max_calls", 2), (lit "rate_limit_per_min", 3),
      (lit "shared_budget", 4)] =
      [(lit "allowed_params", 0), (lit "max_amount_usd", 1), (lit "max_calls", 2),
        (lit "rate_limit_per_min", 3), (lit "shared_budget", 4)] := by decide +kernel
  have hscalar : ∀ {value : Value}, Numeric value →
      (orElse value .null).canon codePoints = orElse value .null := by
    intro value hvalue
    cases hvalue <;> rfl
  have hamount := hscalar h.maxAmountUsd
  have hcalls := hscalar h.maxCalls
  have hrate := hscalar h.rateLimitPerMin
  have hbudget := h.sharedBudget
  rw [Json.Tree.canon_obj, emptyConstraintsObject, wireOf, WireClaims.constraints]
  congr 1
  generalize objectOr (claims.get "constraints") = limits at hamount hcalls hrate hbudget ⊢
  let values := [(orElse (limits.get "allowed_params") (.obj [])).canon codePoints,
    orElse (limits.get "max_amount_usd") .null, orElse (limits.get "max_calls") .null,
    orElse (limits.get "rate_limit_per_min") .null]
  generalize limits.get "shared_budget" = budget at hbudget ⊢
  cases hbudget with
  | null =>
      simp only [hamount, hcalls, hrate, List.map_cons, List.map_nil, List.map_append]
      exact WireClaims.sortMembers_positions hsort values
  | undefined =>
      simp only [hamount, hcalls, hrate, List.map_cons, List.map_nil, List.map_append]
      exact WireClaims.sortMembers_positions hsort values
  | str s hs =>
      simp only [hamount, hcalls, hrate, List.map_cons, List.map_nil, List.map_append]
      exact WireClaims.sortMembers_positions hsort_budget (values ++ [.str s])

theorem truthyMember_eq {key : Units} (h : Textual (claims.get key)) :
    truthyMember claims key = WireClaims.optional key (stringOf (claims.get key)) := by
  rw [truthyMember]
  generalize claims.get key = value at h ⊢
  cases h with
  | null => rfl
  | undefined => rfl
  | str s hs => simp [truthyValue, hs, WireClaims.optional, stringOf]

/-- The keys of the object that is encoded, before the delegation claims. -/
def bodyKeys : List (Units × ℕ) :=
  [(lit "capabilities", 0), (lit "constraints", 1), (lit "exp", 2), (lit "iat", 3), (lit "iss", 4),
    (lit "jti", 5), (lit "sub", 6)]

/-- They in order, with a delegation claim or two between. -/
def sortedBody (dlg prf : List (Units × ℕ)) : List (Units × ℕ) :=
  [(lit "capabilities", 0), (lit "constraints", 1)] ++ dlg ++
    [(lit "exp", 2), (lit "iat", 3), (lit "iss", 4), (lit "jti", 5)] ++ prf ++ [(lit "sub", 6)]

/-- The claims in the order they are put together, around a value of the constraints. -/
def bodyOf (c : WireClaims) (constraints : Value) : Object :=
  [(lit "capabilities", .arr (c.capabilities.map .str)), (lit "constraints", constraints),
    (lit "exp", c.exp), (lit "iat", c.iat), (lit "iss", .str c.iss), (lit "jti", .str c.jti),
    (lit "sub", .str c.sub)] ++
    WireClaims.optional (lit "dlg") c.dlg ++ WireClaims.optional (lit "prf") c.prf

theorem sortMembers_bodyOf (c : WireClaims) (constraints : Value) :
    Json.Tree.sortMembers codePoints (bodyOf c constraints) = c.membersWith constraints := by
  have hneither : Json.Tree.sortMembers codePoints bodyKeys = sortedBody [] [] := by decide +kernel
  have hprf : Json.Tree.sortMembers codePoints (bodyKeys ++ [(lit "prf", 7)]) =
      sortedBody [] [(lit "prf", 7)] := by decide +kernel
  have hdlg : Json.Tree.sortMembers codePoints (bodyKeys ++ [(lit "dlg", 7)]) =
      sortedBody [(lit "dlg", 7)] [] := by decide +kernel
  have hboth : Json.Tree.sortMembers codePoints (bodyKeys ++ [(lit "dlg", 7), (lit "prf", 8)]) =
      sortedBody [(lit "dlg", 7)] [(lit "prf", 8)] := by decide +kernel
  let values : List Value := [.arr (c.capabilities.map .str), constraints, c.exp, c.iat, .str c.iss,
    .str c.jti, .str c.sub]
  rw [bodyOf, WireClaims.membersWith]
  cases c.dlg with
  | none =>
      cases c.prf with
      | none => exact WireClaims.sortMembers_positions hneither values
      | some p => exact WireClaims.sortMembers_positions hprf (values ++ [.str p])
  | some d =>
      cases c.prf with
      | none => exact WireClaims.sortMembers_positions hdlg (values ++ [.str d])
      | some p => exact WireClaims.sortMembers_positions hboth (values ++ [.str d, .str p])

/-- Valid claims are put together from what is written. -/
theorem wireBody_withDefaults (h : ValidClaims claims) :
    wireBody (withDefaults claims) =
      bodyOf (wireOf claims) (.obj (emptyConstraintsObject (objectOr (claims.get "constraints")))) := by
  have hget : ∀ key : Units, key ≠ lit "constraints" → (withDefaults claims).get key = claims.get key :=
    fun key hkey => get_withDefaults key hkey
  have hdlg_get := hget (lit "dlg") (by decide)
  have hprf_get := hget (lit "prf") (by decide)
  obtain ⟨iss, hiss⟩ := h.iss
  obtain ⟨sub, hsub⟩ := h.sub
  obtain ⟨jti, hjti⟩ := h.jti
  obtain ⟨capabilities, hcapabilities⟩ := h.capabilities
  have hfilter : (capabilities.map Json.Tree.str).filterMap stringOf = capabilities := by
    rw [List.filterMap_map]
    exact List.filterMap_some
  rw [wireBody, truthyMember_eq (hdlg_get ▸ h.dlg), truthyMember_eq (hprf_get ▸ h.prf), hdlg_get, hprf_get,
    get_constraints_withDefaults, hget (lit "capabilities") (by decide), hget (lit "exp") (by decide),
    hget (lit "iat") (by decide), hget (lit "iss") (by decide), hget (lit "jti") (by decide),
    hget (lit "sub") (by decide)]
  simp only [bodyOf, wireOf, hcapabilities, hiss, hsub, hjti, hfilter, stringOf, Option.getD_some]

/-- **The object that is encoded, sorted.** -/
theorem canon_wireBody (h : ValidClaims claims) :
    (Json.Tree.obj (wireBody (withDefaults claims)) : Value).canon codePoints =
      .obj (wireOf claims).members := by
  have hstrings : ∀ ss : List Units, (Json.Tree.arr (ss.map .str) : Value).canon codePoints =
      .arr (ss.map .str) := by
    intro ss
    rw [Json.Tree.canon_arr, List.map_map]
    rfl
  have hoptional : ∀ (key : Units) (s : Option Units),
      (WireClaims.optional key s).map (fun m => (m.1, m.2.canon codePoints)) =
        WireClaims.optional key s := by
    intro key s
    cases s <;> rfl
  have htime : ∀ {value : Value}, (∃ d, value = .scalar (.number d) ∧ isFinite d = true) →
      value.canon codePoints = value := by
    rintro _ ⟨d, rfl, -⟩
    rfl
  have hexp : (wireOf claims).exp.canon codePoints = (wireOf claims).exp := htime h.exp
  have hiat : (wireOf claims).iat.canon codePoints = (wireOf claims).iat := htime h.iat
  have hbody : (bodyOf (wireOf claims)
        (.obj (emptyConstraintsObject (objectOr (claims.get "constraints"))))).map
        (fun m => (m.1, m.2.canon codePoints)) =
      bodyOf (wireOf claims) (.obj (wireOf claims).constraints) := by
    simp only [bodyOf, List.map_append, List.map_cons, List.map_nil, hoptional, hstrings, hexp, hiat,
      canon_emptyConstraints h.constraints, Json.Tree.canon_str]
  rw [Json.Tree.canon_obj, wireBody_withDefaults h, hbody, sortMembers_bodyOf]
  rfl

theorem ValidClaims.pins_cases (h : ValidClaims claims) : ∃ pins : Object,
    orElse ((objectOr (claims.get "constraints")).get "allowed_params") (.obj []) = .obj pins ∧
      (Json.Tree.obj pins : Value).allScalars portable = true := by
  have hpins : (orElse ((objectOr (claims.get "constraints")).get "allowed_params") (.obj [])).allScalars
      portable = true := h.pins
  rcases h.constraints.allowedParams with hnone | ⟨pins, hsome, -⟩
  · refine ⟨[], ?_, rfl⟩
    rw [hnone]
    rfl
  · have hsame : orElse (.obj pins) (.obj []) = .obj pins := rfl
    rw [hsome, hsame] at hpins ⊢
    exact ⟨pins, rfl, hpins⟩

/-- The values that are written are in JSON. -/
theorem portable_wireOf (h : ValidClaims claims) : (wireOf claims).Portable where
  allowedParams := by
    obtain ⟨pins, hpins, hportable⟩ := h.pins_cases
    rw [wireOf, hpins, Json.Tree.allScalars_canon]
    exact hportable
  maxCalls := by
    obtain hnull | ⟨d, hd, -, hnumber⟩ := h.constraints.maxCalls.orElse_eq
    · exact congrArg (Json.Tree.allScalars portable) hnull
    · exact (congrArg (Json.Tree.allScalars portable) hnumber).trans hd
  rateLimitPerMin := by
    obtain hnull | ⟨d, hd, -, hnumber⟩ := h.constraints.rateLimitPerMin.orElse_eq
    · exact congrArg (Json.Tree.allScalars portable) hnull
    · exact (congrArg (Json.Tree.allScalars portable) hnumber).trans hd
  exp := by
    obtain ⟨d, hd, hfinite⟩ := h.exp
    exact (congrArg (Json.Tree.allScalars portable) hd).trans hfinite
  iat := by
    obtain ⟨d, hd, hfinite⟩ := h.iat
    exact (congrArg (Json.Tree.allScalars portable) hd).trans hfinite

/-- The budget's name and its comma. -/
theorem budgetWire_textual {value : Value} (h : Textual value) :
    budgetWire ((stringOf value).elim .undefined .str) =
      .ok (WireClaims.optionalText (lit "shared_budget") (stringOf value)) := by
  have hkey : Json.codes ",\"shared_budget\":" = [44] ++ WireClaims.keyText (lit "shared_budget") := by
    decide
  cases h with
  | null => rfl
  | undefined => rfl
  | str s hs =>
      have hencode : encode (.str s) = .ok (quoted s) := by
        rw [encode, encodeWith_str, encodeString_eq]
        rfl
      simp only [budgetWire, stringOf, Option.elim_some, hencode, WireClaims.optionalText, hkey]
      rfl

/-- **What is written for valid constraints.** -/
theorem constraintsWire_eq (h : ValidClaims claims) :
    constraintsWire (emptyConstraintsObject (objectOr (claims.get "constraints"))) =
      .ok ((wireOf claims).constraintsText (amountText (wireOf claims).maxAmountUsd)) := by
  have hlimits := h.constraints
  obtain ⟨hallowed, hamount, hcalls, hrate, hbudget⟩ := get_emptyConstraints _ hlimits.sharedBudget
  obtain ⟨pins, hpins, hportable⟩ := h.pins_cases
  have hencode : encode (orElse (.obj pins) (.obj [])) =
      .ok (WireClaims.valueText (wireOf claims).allowedParams) := by
    have hsame : orElse (.obj pins) (.obj []) = .obj pins := rfl
    rw [hsame, encode_eq hportable, wireOf, hpins]
    rfl
  have hkeys : Json.codes "\"allowed_params\":" = WireClaims.keyText (lit "allowed_params") ∧
      Json.codes ",\"max_amount_usd\":" = [44] ++ WireClaims.keyText (lit "max_amount_usd") ∧
      Json.codes ",\"max_calls\":" = [44] ++ WireClaims.keyText (lit "max_calls") ∧
      Json.codes ",\"rate_limit_per_min\":" = [44] ++ WireClaims.keyText (lit "rate_limit_per_min") := by
    decide
  obtain ⟨hallowedKey, hamountKey, hcallsKey, hrateKey⟩ := hkeys
  rw [constraintsWire, hallowed, hamount, hcalls, hrate, hbudget, amountWire_numeric hlimits.maxAmountUsd,
    countWire_numeric hlimits.maxCalls, countWire_numeric hlimits.rateLimitPerMin,
    budgetWire_textual hlimits.sharedBudget, hpins, hencode, hallowedKey, hamountKey, hcallsKey, hrateKey]
  simp only [WireClaims.constraintsText, WireClaims.pinFront, WireClaims.pinBack]
  simp [bind, Except.bind, pure, Except.pure, wireOf]

/-- No pattern stands in a pin. -/
def pinsFree (claims : Object) : Bool := (pinsOf claims).allStrs patternFree

/-- The text of the constraints that is found, and the one that is put in its place. -/
def oldText (c : WireClaims) : List ℕ := c.constraintsText (WireClaims.valueText c.maxAmountUsd)

def newText (c : WireClaims) : List ℕ := c.constraintsText (amountText c.maxAmountUsd)

theorem portable_amount (h : ValidClaims claims) :
    (wireOf claims).maxAmountUsd.allScalars portable = true := by
  obtain hnull | ⟨d, hd, -, hnumber⟩ := h.constraints.maxAmountUsd.orElse_eq
  · exact congrArg (Json.Tree.allScalars portable) hnull
  · exact (congrArg (Json.Tree.allScalars portable) hnumber).trans hd

theorem portable_constraints {c : WireClaims} (hc : c.Portable)
    (hamount : c.maxAmountUsd.allScalars portable = true) :
    (Json.Tree.obj c.constraints : Value).allScalars portable = true := by
  rw [Json.Tree.allScalars_obj, WireClaims.constraints]
  cases c.sharedBudget <;>
    simp [WireClaims.optional, hc.allowedParams, hc.maxCalls, hc.rateLimitPerMin, hamount]

theorem portable_members {c : WireClaims} (hc : c.Portable)
    (hamount : c.maxAmountUsd.allScalars portable = true) :
    (Json.Tree.obj c.members : Value).allScalars portable = true := by
  have hconstraints := portable_constraints hc hamount
  rw [Json.Tree.allScalars_obj, WireClaims.members]
  cases c.dlg <;> cases c.prf <;> simp [WireClaims.optional, hc.exp, hc.iat, hconstraints]

/-- **What is written for valid claims**: the constraints' text is put in as a replacement. -/
theorem claimsWire_expand (h : ValidClaims claims) :
    claimsWire (withDefaults claims) = .ok ((wireOf claims).front ++ [44] ++
      expand (WireClaims.keyText (lit "constraints") ++ oldText (wireOf claims))
        ((wireOf claims).front ++ [44]) (wireOf claims).back
        (WireClaims.keyText (lit "constraints") ++ newText (wireOf claims)) ++ (wireOf claims).back) := by
  have hportable := portable_wireOf h
  have hkey : Json.codes "\"constraints\":" = WireClaims.keyText (lit "constraints") := by decide
  have hbody : encode (.obj (wireBody (withDefaults claims))) =
      .ok ((wireOf claims).text (oldText (wireOf claims))) := by
    have hbody : (Json.Tree.obj (wireBody (withDefaults claims)) : Value).allScalars portable = true := by
      rw [← Json.Tree.allScalars_canon codePoints, canon_wireBody h]
      exact portable_members hportable (portable_amount h)
    rw [encode_eq hbody, canon_wireBody h]
    exact congrArg _ (wireOf claims).render_members
  have hold : encode (.obj (emptyConstraintsObject (objectOr (claims.get "constraints")))) =
      .ok (oldText (wireOf claims)) := by
    have hlimits : (Json.Tree.obj (emptyConstraintsObject (objectOr (claims.get "constraints"))) :
        Value).allScalars portable = true := by
      rw [← Json.Tree.allScalars_canon codePoints, canon_emptyConstraints h.constraints]
      exact portable_constraints hportable (portable_amount h)
    rw [encode_eq hlimits, canon_emptyConstraints h.constraints]
    exact congrArg _ (wireOf claims).render_constraints
  rw [claimsWire, hbody, get_constraints_withDefaults, hold, objectOr, constraintsWire_eq h, hkey]
  exact congrArg Except.ok ((wireOf claims).replace_constraints _ _)

theorem plain_valueText_scalar {w : Scalar} (h : portable w = true) :
    Plain (WireClaims.valueText (.scalar w)) :=
  plain_render (v := .scalar w) h rfl

theorem str_of_get {q : Units → Bool} {pins : Object} {key s : Units}
    (h : (Json.Tree.obj pins : Value).allStrs q = true) (hget : pins.get key = .str s) : q s = true := by
  rw [Object.get] at hget
  cases hlookup : pins.lookup key with
  | none =>
      rw [hlookup] at hget
      cases hget
  | some value =>
      rw [hlookup, Option.getD_some] at hget
      obtain ⟨before, after, hpins, -⟩ := List.lookup_eq_some_iff.mp hlookup
      rw [Json.Tree.allStrs_obj, List.all_eq_true] at h
      have hmember := h (key, value) (by rw [hpins]; simp)
      rw [hget] at hmember
      exact (Bool.and_eq_true_iff.mp hmember).2

/-- The shared budget's name is one of the pins' strings. -/
theorem budget_of_allStrs {q : Units → Bool} (h : ValidClaims claims)
    (hq : (wireOf claims).allowedParams.allStrs q = true) {b : Units}
    (hb : (wireOf claims).sharedBudget = some b) : q b = true := by
  have hlimits := h.constraints
  have hpin : (objectOr ((objectOr (claims.get "constraints")).get "allowed_params")).get "budget_id" =
      .str b := by
    refine hlimits.budgetPin b ?_
    have hvalue : stringOf ((objectOr (claims.get "constraints")).get "shared_budget") = some b := hb
    generalize (objectOr (claims.get "constraints")).get "shared_budget" = value at hvalue ⊢
    cases value with
    | str s => exact congrArg _ (Option.some.inj hvalue)
    | _ => cases hvalue
  rw [wireOf, Json.Tree.allStrs_canon] at hq
  rcases hlimits.allowedParams with hnone | ⟨pins, hpins, -⟩
  · rw [hnone] at hpin
    cases hpin
  · rw [hpins] at hpin hq
    exact str_of_get hq hpin

theorem allStrs_wireOf : (wireOf claims).allowedParams.allStrs patternFree = pinsFree claims :=
  Json.Tree.allStrs_canon ..

/-- Without patterns in the pins there are none in the constraints. -/
theorem plain_newText (h : ValidClaims claims) (hfree : pinsFree claims = true) :
    Plain (newText (wireOf claims)) := by
  have hlimits := h.constraints
  have hstrs := allStrs_wireOf.trans hfree
  have hallowed := plain_render (portable_wireOf h).allowedParams hstrs
  have hnumeric : ∀ {value : Value}, Numeric value →
      Plain (WireClaims.valueText (orElse value .null)) := by
    intro value hvalue
    rcases hvalue.orElse_eq with hnull | ⟨d, hd, -, hnumber⟩
    · rw [hnull]
      exact plain_valueText_scalar rfl
    · rw [hnumber]
      exact plain_valueText_scalar hd
  have hamount : Plain (amountText (wireOf claims).maxAmountUsd) :=
    plain_of_not_mem fun hmem =>
      absurd ((reads_amountText hlimits.maxAmountUsd).word 36 hmem) (by decide)
  have hbudget : Plain (WireClaims.optionalText (lit "shared_budget") (wireOf claims).sharedBudget) := by
    cases hb : (wireOf claims).sharedBudget with
    | none => exact plain_nil
    | some b =>
        exact (plain_of_not_mem (by decide)).append (plain_quoted (budget_of_allStrs h hstrs hb))
  rw [newText, WireClaims.constraintsText, WireClaims.pinFront, WireClaims.pinBack]
  have hkey : ∀ key ∈ ["allowed_params", "max_amount_usd", "max_calls", "rate_limit_per_min"],
      Plain (WireClaims.keyText (lit key)) := by
    intro key hkey
    exact plain_of_not_mem (by revert key; decide)
  have hcomma : Plain [44] := plain_of_not_mem (by decide)
  exact (((plain_of_not_mem (by decide)).append (hkey _ (by simp))).append hallowed).append hcomma
    |>.append ((hkey _ (by simp)).append hamount) |>.append
    ((((((hcomma.append (hkey _ (by simp))).append (hnumeric hlimits.maxCalls)).append hcomma).append
      (hkey _ (by simp))).append (hnumeric hlimits.rateLimitPerMin)).append hbudget |>.append
      (plain_of_not_mem (by decide)))

/-- **The text of claims without patterns.** -/
theorem claimsWire_eq (h : ValidClaims claims) (hfree : pinsFree claims = true) :
    claimsWire (withDefaults claims) = .ok ((wireOf claims).text (newText (wireOf claims))) := by
  have hplain : Plain (WireClaims.keyText (lit "constraints") ++ newText (wireOf claims)) :=
    (plain_of_not_mem (by decide)).append (plain_newText h hfree)
  rw [claimsWire_expand h, hplain.expand]
  rfl

end Defaults

end SwarmAuth.Node
