import SwarmAuth.TypeScript.CanonicalJson
import SwarmAuth.Node.Token
import SwarmAuth.Js.Wire

/-!
# Tokens in TypeScript

`token.ts`: the claims an SDK user builds, their wire object, and the payload a token signs.
The checks on a payload are those of Node, with texts of their own. A whole
`max_amount_usd` is rewritten in the canonical text of the payload, at the first place where
its member's text stands.

## Main definitions

* `CapabilityClaims`, `claimsToWireJson`, `wireJsonToClaims` — claims and wire objects.
* `payloadText` — what `buildToken` signs.
* `wireText`, `canonicalJsonString_wire` — the canonical text, member by member.
* `payloadText_unpinned` — without pins the rewriting meets the amount.
-/
namespace SwarmAuth.TypeScript

open Js
open WireClaims (sortMembers_positions)
open Node (validFields nonEmptyString isObject validJson validCount validAmount budgetPins onlyKeys
  objectOr stringOf numberOf malformed portable_of_validScalar isFinite_of_isSafeInteger)

/-! ## Claims -/

/-- `NormalizedConstraints`. -/
structure NormalizedConstraints where
  maxCalls : Option Double := none
  maxAmountUsd : Option Double := none
  rateLimitPerMin : Option Double := none
  allowedParams : Object := []
  sharedBudget : Option Units := none
  deriving DecidableEq

/-- `CapabilityClaims`. -/
structure CapabilityClaims where
  iss : Units
  sub : Units
  capabilities : List Units
  constraints : NormalizedConstraints := {}
  iat : Double
  exp : Double
  jti : Units
  dlg : Option Units := none
  prf : Option Units := none
  deriving DecidableEq

/-- A number or `null`. -/
def orNull (d : Option Double) : Value := d.elim .null fun d => .scalar (.number d)

/-- The constraints' part of `claimsToWireJson`. -/
def constraintsToWire (c : NormalizedConstraints) : Object :=
  [(lit "max_calls", orNull c.maxCalls), (lit "max_amount_usd", orNull c.maxAmountUsd),
    (lit "rate_limit_per_min", orNull c.rateLimitPerMin), (lit "allowed_params", .obj c.allowedParams)] ++
    c.sharedBudget.elim [] fun s => [(lit "shared_budget", .str s)]

/-- A string of a delegation claim that is not empty. -/
def truthyMember (key : Units) (s : Option Units) : Object :=
  s.elim [] fun s => if s = [] then [] else [(key, .str s)]

/-- `claimsToWireJson`. -/
def claimsToWireJson (claims : CapabilityClaims) : Object :=
  [(lit "iss", .str claims.iss), (lit "sub", .str claims.sub),
    (lit "capabilities", .arr (claims.capabilities.map .str)),
    (lit "constraints", .obj (constraintsToWire claims.constraints)),
    (lit "iat", .scalar (.number claims.iat)), (lit "exp", .scalar (.number claims.exp)),
    (lit "jti", .str claims.jti)] ++
    truthyMember (lit "dlg") claims.dlg ++ truthyMember (lit "prf") claims.prf

/-- The checks of `wireJsonToClaims` on an object of constraints. -/
def validateConstraints (c : Object) : Outcome Unit := do
  raiseIf (!onlyKeys c ["max_calls", "max_amount_usd", "rate_limit_per_min", "allowed_params",
    "shared_budget"]) (malformed "Invalid constraints")
  raiseIf (!validCount (c.get "max_calls")) (malformed "Invalid max_calls")
  raiseIf (!validCount (c.get "rate_limit_per_min")) (malformed "Invalid rate_limit_per_min")
  raiseIf (!validAmount (c.get "max_amount_usd")) (malformed "Invalid budget")
  raiseIf (c.hasOwn "allowed_params" &&
    (!isObject (c.get "allowed_params") || !validJson (c.get "allowed_params")))
    (malformed "Invalid allowed_params")
  raiseIf (!(c.get "shared_budget").isNullish &&
      !budgetPins (c.get "shared_budget") (objectOr (c.get "allowed_params")))
    (malformed "Shared budget requires matching budget and monetary pins")

/-- The constraints of a payload, as an object. -/
def constraintsOf : Value → Outcome Object
  | .obj c => .ok c
  | .scalar .undefined => .ok []
  | _ => .error (malformed "Invalid constraints")

/-- The constraints read from a validated object. -/
def readConstraints (c : Object) : NormalizedConstraints where
  maxCalls := numberOf (c.get "max_calls")
  maxAmountUsd := numberOf (c.get "max_amount_usd")
  rateLimitPerMin := numberOf (c.get "rate_limit_per_min")
  allowedParams := objectOr (c.get "allowed_params")
  sharedBudget := stringOf (c.get "shared_budget")

/-- The strings of an array. -/
def stringsOf : Value → List Units
  | .arr items => items.filterMap stringOf
  | _ => []

/-- `wireJsonToClaims` of an object. -/
def objectToClaims (p : Object) : Outcome CapabilityClaims := do
  raiseIf (!validFields p) (malformed "Invalid claims schema")
  raiseIf (!(p.get "dlg").isNullish && !nonEmptyString (p.get "dlg")) (malformed "Invalid dlg")
  raiseIf (!(p.get "prf").isNullish && !nonEmptyString (p.get "prf")) (malformed "Invalid prf")
  let c ← constraintsOf (p.get "constraints")
  validateConstraints c
  return {
    iss := (stringOf (p.get "iss")).getD []
    sub := (stringOf (p.get "sub")).getD []
    jti := (stringOf (p.get "jti")).getD []
    capabilities := stringsOf (p.get "capabilities")
    iat := (numberOf (p.get "iat")).getD .nan
    exp := (numberOf (p.get "exp")).getD .nan
    constraints := readConstraints c
    dlg := stringOf (p.get "dlg")
    prf := stringOf (p.get "prf") }

/-- `wireJsonToClaims`. -/
def wireJsonToClaims : Value → Outcome CapabilityClaims
  | .obj p => objectToClaims p
  | _ => .error (malformed "Token payload must be a JSON object")

/-! ## The payload -/

/-- `amount.toFixed(1)` of a whole amount. -/
def toFixed (amount : Double) : List ℕ :=
  match amount with
  | .finite neg mag =>
      if mag.value < 10 ^ 21 then
        (if neg && mag.sig ≠ 0 then [45] else []) ++ natText ⌊mag.value⌋₊ ++ [46, 48]
      else numberText amount
  | _ => numberText amount

/-- The text of the amount's member. -/
def amountMember (text : List ℕ) : List ℕ := Json.codes "\"max_amount_usd\":" ++ text

/-- The rewriting of a whole amount. -/
def rewriteAmount (amount : Option Double) (payload : List ℕ) : List ℕ :=
  match amount with
  | some d =>
      if isInteger d then replace payload (amountMember (numberText d)) (amountMember (toFixed d))
      else payload
  | none => payload

/-- The payload that `buildToken` signs. -/
def payloadText (claims : CapabilityClaims) : Outcome (List ℕ) := do
  let wire : Value := .obj (claimsToWireJson claims)
  let _ ← wireJsonToClaims wire
  let payload ← canonicalJsonString wire
  return rewriteAmount claims.constraints.maxAmountUsd payload

/-! ## The canonical text -/

/-- The values of the wire object, its pins sorted. -/
def CapabilityClaims.wire (c : CapabilityClaims) : WireClaims where
  capabilities := c.capabilities
  allowedParams := (Json.Tree.obj c.constraints.allowedParams : Value).canon codePoints
  maxAmountUsd := orNull c.constraints.maxAmountUsd
  maxCalls := orNull c.constraints.maxCalls
  rateLimitPerMin := orNull c.constraints.rateLimitPerMin
  sharedBudget := c.constraints.sharedBudget
  dlg := c.dlg.filter (· ≠ [])
  exp := .scalar (.number c.exp)
  iat := .scalar (.number c.iat)
  iss := c.iss
  jti := c.jti
  prf := c.prf.filter (· ≠ [])
  sub := c.sub

theorem canon_orNull (d : Option Double) : (orNull d).canon codePoints = orNull d := by
  cases d <;> rfl

theorem canon_strings (ss : List Units) :
    (Json.Tree.arr (ss.map .str) : Value).canon codePoints = .arr (ss.map .str) := by
  rw [Json.Tree.canon_arr, List.map_map]
  congr 1

/-- The wire object of the constraints, sorted. -/
theorem canon_constraints (c : CapabilityClaims) :
    (Json.Tree.obj (constraintsToWire c.constraints) : Value).canon codePoints =
      .obj c.wire.constraints := by
  have hsort : Json.Tree.sortMembers codePoints [(lit "max_calls", 0), (lit "max_amount_usd", 1),
      (lit "rate_limit_per_min", 2), (lit "allowed_params", 3)] =
      [(lit "allowed_params", 3), (lit "max_amount_usd", 1), (lit "max_calls", 0),
        (lit "rate_limit_per_min", 2)] := by decide +kernel
  have hsort_budget : Json.Tree.sortMembers codePoints [(lit "max_calls", 0),
      (lit "max_amount_usd", 1), (lit "rate_limit_per_min", 2), (lit "allowed_params", 3),
      (lit "shared_budget", 4)] =
      [(lit "allowed_params", 3), (lit "max_amount_usd", 1), (lit "max_calls", 0),
        (lit "rate_limit_per_min", 2), (lit "shared_budget", 4)] := by decide +kernel
  rw [Json.Tree.canon_obj]
  congr 1
  let limits := [orNull c.constraints.maxCalls, orNull c.constraints.maxAmountUsd,
    orNull c.constraints.rateLimitPerMin,
    (Json.Tree.obj c.constraints.allowedParams : Value).canon codePoints]
  cases hb : c.constraints.sharedBudget with
  | none =>
      have h := sortMembers_positions hsort limits
      simp only [constraintsToWire, hb, Option.elim_none, List.append_nil, List.map_cons, List.map_nil,
        canon_orNull, WireClaims.constraints, CapabilityClaims.wire, WireClaims.optional]
      exact h
  | some b =>
      have h := sortMembers_positions hsort_budget (limits ++ [.str b])
      simp only [constraintsToWire, hb, Option.elim_some, List.map_append, List.map_cons, List.map_nil,
        canon_orNull, WireClaims.constraints, CapabilityClaims.wire, WireClaims.optional]
      exact h

/-- The keys of the wire object of the claims, before the delegation claims. -/
def wireKeys : List (Units × ℕ) :=
  [(lit "iss", 0), (lit "sub", 1), (lit "capabilities", 2), (lit "constraints", 3), (lit "iat", 4),
    (lit "exp", 5), (lit "jti", 6)]

/-- They in order, with a delegation claim or two between. -/
def sortedKeys (dlg prf : List (Units × ℕ)) : List (Units × ℕ) :=
  [(lit "capabilities", 2), (lit "constraints", 3)] ++ dlg ++
    [(lit "exp", 5), (lit "iat", 4), (lit "iss", 0), (lit "jti", 6)] ++ prf ++ [(lit "sub", 1)]

/-- The wire object of the claims, sorted. -/
theorem canon_claims (c : CapabilityClaims) :
    (Json.Tree.obj (claimsToWireJson c) : Value).canon codePoints = .obj c.wire.members := by
  have hneither : Json.Tree.sortMembers codePoints wireKeys = sortedKeys [] [] := by decide +kernel
  have hprf : Json.Tree.sortMembers codePoints (wireKeys ++ [(lit "prf", 7)]) =
      sortedKeys [] [(lit "prf", 7)] := by decide +kernel
  have hdlg : Json.Tree.sortMembers codePoints (wireKeys ++ [(lit "dlg", 7)]) =
      sortedKeys [(lit "dlg", 7)] [] := by decide +kernel
  have hboth : Json.Tree.sortMembers codePoints (wireKeys ++ [(lit "dlg", 7), (lit "prf", 8)]) =
      sortedKeys [(lit "dlg", 7)] [(lit "prf", 8)] := by decide +kernel
  have hmember : ∀ (key : Units) (s : Option Units), truthyMember key s =
      WireClaims.optional key (s.filter (· ≠ [])) := by
    rintro key (_ | s)
    · rfl
    · by_cases hs : s = [] <;> simp [truthyMember, WireClaims.optional, Option.filter_some, hs]
  let values : List Value := [.str c.iss, .str c.sub, .arr (c.capabilities.map .str),
    .obj c.wire.constraints, .scalar (.number c.iat), .scalar (.number c.exp), .str c.jti]
  rw [Json.Tree.canon_obj]
  congr 1
  simp only [claimsToWireJson, hmember, WireClaims.members]
  rw [show c.wire.dlg = c.dlg.filter (· ≠ []) from rfl, show c.wire.prf = c.prf.filter (· ≠ []) from rfl]
  rcases c.dlg.filter (· ≠ []) with _ | d <;> rcases c.prf.filter (· ≠ []) with _ | p <;>
    simp only [WireClaims.optional, Option.elim_none, Option.elim_some, List.append_nil,
      List.map_append, List.map_cons, List.map_nil, canon_constraints, canon_strings]
  · exact sortMembers_positions hneither values
  · exact sortMembers_positions hprf (values ++ [.str p])
  · exact sortMembers_positions hdlg (values ++ [.str d])
  · exact sortMembers_positions hboth (values ++ [.str d, .str p])

/-- **The canonical text**, where the wire object has one. -/
theorem canonicalJsonString_wire (c : CapabilityClaims)
    (h : (Json.Tree.obj (claimsToWireJson c) : Value).allScalars portable = true) :
    canonicalJsonString (.obj (claimsToWireJson c)) =
      .ok (c.wire.text (c.wire.constraintsText
        (WireClaims.valueText (orNull c.constraints.maxAmountUsd)))) := by
  rw [canonicalJsonString_eq h, canon_claims]
  exact congrArg _ c.wire.render_members

/-! ## Accepted claims -/

theorem portable_of_validCount {d : Option Double} (h : validCount (orNull d) = true) :
    (orNull d).allScalars portable = true := by
  cases d with
  | none => rfl
  | some d =>
      have hsafe : isSafeInteger d = true := by
        simp [validCount, orNull, Value.isNullish, Node.safeInteger] at h
        exact h.1
      exact isFinite_of_isSafeInteger hsafe

theorem portable_of_validAmount {d : Option Double} (h : validAmount (orNull d) = true) :
    (orNull d).allScalars portable = true := by
  cases d with
  | none => rfl
  | some d =>
      simp [validAmount, orNull, Value.isNullish] at h
      exact h.1

/-- What the checks of `wireJsonToClaims` establish of a wire object. -/
structure Accepted (c : CapabilityClaims) : Prop where
  fields : validFields (claimsToWireJson c) = true
  maxCalls : validCount (orNull c.constraints.maxCalls) = true
  rateLimitPerMin : validCount (orNull c.constraints.rateLimitPerMin) = true
  maxAmountUsd : validAmount (orNull c.constraints.maxAmountUsd) = true
  allowedParams : validJson (.obj c.constraints.allowedParams) = true
  sharedBudget : ∀ b, c.constraints.sharedBudget = some b →
    budgetPins (.str b) c.constraints.allowedParams = true

theorem get_constraints (c : NormalizedConstraints) :
    Object.get (constraintsToWire c) "max_calls" = orNull c.maxCalls ∧
      Object.get (constraintsToWire c) "max_amount_usd" = orNull c.maxAmountUsd ∧
      Object.get (constraintsToWire c) "rate_limit_per_min" = orNull c.rateLimitPerMin ∧
      Object.get (constraintsToWire c) "allowed_params" = .obj c.allowedParams ∧
      Object.get (constraintsToWire c) "shared_budget" =
        c.sharedBudget.elim .undefined .str := by
  cases hb : c.sharedBudget <;> simp only [constraintsToWire, hb] <;> exact ⟨rfl, rfl, rfl, rfl, rfl⟩

/-- The checks, of a wire object. -/
theorem accepted_of {c c' : CapabilityClaims}
    (h : wireJsonToClaims (.obj (claimsToWireJson c)) = .ok c') : Accepted c := by
  simp only [wireJsonToClaims, objectToClaims, raiseIf_bind_eq_ok, Bool.not_eq_true',
    Bool.not_eq_false] at h
  obtain ⟨hfields, -, -, h⟩ := h
  rw [show Object.get (claimsToWireJson c) "constraints" = .obj (constraintsToWire c.constraints)
    from rfl] at h
  obtain ⟨limits, hlimits, h⟩ := bind_eq_ok.mp h
  obtain rfl := Except.ok.inj hlimits
  obtain ⟨⟨⟩, hvalid, -⟩ := bind_eq_ok.mp h
  obtain ⟨hcalls, hamount, hrate, hparams, hbudget⟩ := get_constraints c.constraints
  simp only [validateConstraints, raiseIf_bind_eq_ok, raiseIf_eq_ok, hcalls, hamount, hrate, hparams,
    hbudget, Bool.not_eq_true', Bool.not_eq_false] at hvalid
  obtain ⟨-, hcalls, hrate, hamount, hparams, hbudget⟩ := hvalid
  refine ⟨hfields, hcalls, hrate, hamount, ?_, ?_⟩
  · have hown : Object.hasOwn (constraintsToWire c.constraints) "allowed_params" = true := rfl
    simpa [hown, isObject] using hparams
  · intro b hb
    simpa [hb, Value.isNullish, objectOr] using hbudget

/-- An accepted wire object has a canonical text. -/
theorem Accepted.portable {c : CapabilityClaims} (h : Accepted c)
    (hwhole : Value.whole (.obj c.constraints.allowedParams) = true) :
    (Json.Tree.obj (claimsToWireJson c) : Value).allScalars Js.portable = true := by
  have hfields := h.fields
  simp only [validFields, Bool.and_eq_true] at hfields
  obtain ⟨⟨⟨-, hiat⟩, hexp⟩, -⟩ := hfields
  have hstrings : ∀ (key : Units) (s : Option Units),
      (truthyMember key s).all fun m => m.2.allScalars Js.portable := by
    rintro key (_ | s)
    · rfl
    · by_cases hs : s = [] <;> simp [truthyMember, hs]
  have hbudget : ((c.constraints.sharedBudget.elim [] fun s => [(lit "shared_budget", .str s)] : Object).all
      fun m => m.2.allScalars Js.portable) = true := by
    cases c.constraints.sharedBudget <;> simp
  have hparams : (Json.Tree.obj c.constraints.allowedParams : Value).allScalars Js.portable = true := by
    refine Json.Tree.allScalars_mono (fun w hw => ?_) (Json.Tree.allScalars_and h.allowedParams hwhole)
    obtain ⟨hvalid, hhole⟩ := Bool.and_eq_true_iff.mp hw
    exact portable_of_validScalar hvalid (of_decide_eq_true hhole)
  have hconstraints : (Json.Tree.obj (constraintsToWire c.constraints) : Value).allScalars
      Js.portable = true := by
    rw [Json.Tree.allScalars_obj, constraintsToWire, List.all_append, hbudget]
    simp only [List.all_cons, List.all_nil, portable_of_validCount h.maxCalls,
      portable_of_validCount h.rateLimitPerMin, portable_of_validAmount h.maxAmountUsd, hparams,
      Bool.and_true]
  rw [Json.Tree.allScalars_obj, claimsToWireJson, List.all_append, List.all_append, hstrings, hstrings]
  simp only [List.all_cons, List.all_nil, hconstraints, Json.Tree.allScalars_str,
    Json.Tree.allScalars_scalar, Bool.true_and, Bool.and_true]
  have hstrs : (Json.Tree.arr (c.capabilities.map .str) : Value).allScalars Js.portable = true := by
    simp
  rw [hstrs, Bool.true_and, Bool.and_eq_true]
  exact ⟨isFinite_of_isSafeInteger hiat, isFinite_of_isSafeInteger hexp⟩

/-! ## The rewriting -/

/-- The text of an amount in a token: a whole amount's is rewritten. -/
def amountText (d : Double) : List ℕ := if isInteger d then toFixed d else numberText d

theorem keyText_amount : WireClaims.keyText (lit "max_amount_usd") = Json.codes "\"max_amount_usd\":" := by
  decide

/-- No digit or sign of a number is a dollar sign. -/
theorem dollar_not_mem_toFixed (d : Double) (h : isFinite d = true) : 36 ∉ toFixed d := by
  have hdigits : ∀ n, 36 ∉ natText n := fun n hmem => absurd (isDigit_natText hmem) (by decide)
  cases d with
  | finite neg mag =>
      have htext : 36 ∉ numberText (.finite neg mag) := by
        intro hmem
        rcases Layout.mem_text (numberLayout_valid mag) hmem with hdigit | hsign
        · exact absurd hdigit (by decide)
        · exact absurd hsign (by decide)
      simp only [toFixed]
      split_ifs <;> simp [hdigits, htext]
  | inf neg => cases h
  | nan => cases h

/-- **Without pins the payload is the canonical text**, but for the text of the amount. -/
theorem payloadText_unpinned {c c' : CapabilityClaims} {d : Double}
    (hamount : c.constraints.maxAmountUsd = some d) (hpins : c.constraints.allowedParams = [])
    (h : wireJsonToClaims (.obj (claimsToWireJson c)) = .ok c') :
    payloadText c = .ok (c.wire.text (c.wire.constraintsText (amountText d))) := by
  have haccepted := accepted_of h
  have hcanonical := canonicalJsonString_wire c (haccepted.portable (by rw [hpins]; rfl))
  have hvalue : WireClaims.valueText (orNull c.constraints.maxAmountUsd) = numberText d := by
    rw [hamount]
    exact Json.render_scalar ..
  rw [hvalue] at hcanonical
  have hfinite : isFinite d = true := by
    have hvalid := portable_of_validAmount haccepted.maxAmountUsd
    rw [hamount] at hvalid
    exact hvalid
  have hempty : c.wire.allowedParams = .obj [] := by
    simp only [CapabilityClaims.wire, hpins]
    rfl
  simp only [payloadText, h, hcanonical, hamount, rewriteAmount, amountText]
  split_ifs
  · rw [amountMember, amountMember, ← keyText_amount]
    exact congrArg Except.ok (c.wire.replace_amount hempty _ (dollar_not_mem_toFixed d hfinite))
  · rfl

end SwarmAuth.TypeScript
