import SwarmAuth.Python.Json

/-!
# Constraints and claims

The two pydantic models of a token's payload. Each is a record of fields with the
checks its model makes as a decidable predicate, and a structure that carries them, so
an invalid value cannot be built. `modelValidate` is strict validation of a loaded
payload, `claimsWireDict` the object that is signed.

## Main definitions

* `Constraints`, `CapabilityClaims` — the models.
* `modelValidate` — from a loaded object.
* `claimsWireDict` — to the signed object.
-/
namespace SwarmAuth.Python

/-- The largest integer binary64 tells from its neighbours, `2 ** 53 - 1`. -/
def maxSafe : ℤ := 2 ^ 53 - 1

/-- A `str` without unpaired surrogates, as length-constrained string fields demand. -/
def isText (s : Units) : Bool := (codePoints s).all fun c => c < 0xD800 || 0xE000 ≤ c

/-- The check of a `str` field with `min_length=1`. -/
def nonEmptyText (s : Units) : Bool := s ≠ [] && isText s

/-! ## Constraints -/

/-- Optional runtime limits scoped to a single token. -/
structure ConstraintFields where
  maxCalls : Option ℤ := none
  maxAmountUsd : Option Double := none
  rateLimitPerMin : Option ℤ := none
  allowedParams : Dict := []
  sharedBudget : Option Units := none
  deriving DecidableEq

/-- `ge=1, le=2**53 - 1`. -/
def positiveSafe (n : ℤ) : Bool := 1 ≤ n && n ≤ maxSafe

/-- `ge=0` with `allow_inf_nan` off. -/
def nonNegative (d : Double) : Bool := d.value?.any fun q : ℚ => 0 ≤ q

/-- The scalars `_json_params` admits: finite numbers, integers in the safe range. -/
def validScalar : Scalar → Bool
  | .int n => |n| ≤ maxSafe
  | .float d => d.value?.any fun q : ℚ => q.den ≠ 1 || |q| ≤ (maxSafe : ℚ)
  | _ => true

/-- A number that is an integer from 0 to `2**53 - 1`, as `int(minor)`. -/
def safeMinor : Option Value → Option ℤ
  | some (.scalar (.int n)) => if 0 ≤ n ∧ n ≤ maxSafe then some n else none
  | some (.scalar (.float d)) =>
      match d.value? with
      | some q => if 0 ≤ q ∧ q ≤ (maxSafe : ℚ) ∧ q.den = 1 then some q.num else none
      | none => none
  | _ => none

/-- Three letters `A` to `Z`. -/
def currencyCode (s : Units) : Bool := s.length = 3 && s.all fun c => 65 ≤ c && c ≤ 90

/-- `_budget_pins`: a shared budget comes with its pins. -/
def budgetPins (f : ConstraintFields) : Bool :=
  match f.sharedBudget with
  | none => true
  | some budget =>
      f.allowedParams.get? "budget_id" = some (.str budget) &&
        (safeMinor (f.allowedParams.get? "amount_minor")).isSome &&
        match f.allowedParams.get? "currency" with
        | some (.str s) => currencyCode s
        | _ => false

/-- The checks of the model. -/
def ConstraintFields.valid (f : ConstraintFields) : Bool :=
  f.maxCalls.all positiveSafe && f.maxAmountUsd.all nonNegative &&
    f.rateLimitPerMin.all positiveSafe && f.allowedParams.all (fun m => m.2.allScalars validScalar) &&
    f.sharedBudget.all nonEmptyText && budgetPins f

/-- No dict of the fields repeats a key; this is what a `dict` is, not a check. -/
def ConstraintFields.dictLike (f : ConstraintFields) : Bool :=
  Json.Tree.keysNodup (.obj f.allowedParams : Value)

/-- `Constraints`. -/
structure Constraints extends ConstraintFields where
  valid : toConstraintFields.valid = true
  dictLike : toConstraintFields.dictLike = true
  deriving DecidableEq

/-- A shared budget is pinned, with an amount and a currency. -/
theorem Constraints.budget_pinned (c : Constraints) {budget : Units}
    (h : c.sharedBudget = some budget) :
    c.allowedParams.get? "budget_id" = some (.str budget) ∧
      (∃ minor, safeMinor (c.allowedParams.get? "amount_minor") = some minor) ∧
      ∃ s, c.allowedParams.get? "currency" = some (.str s) ∧ currencyCode s = true := by
  have hv := c.valid
  simp only [ConstraintFields.valid, Bool.and_eq_true, budgetPins, h, decide_eq_true_eq,
    Option.isSome_iff_exists] at hv
  obtain ⟨-, ⟨hid, hminor⟩, hcurrency⟩ := hv
  refine ⟨hid, hminor, ?_⟩
  split at hcurrency
  · exact ⟨_, ‹_›, hcurrency⟩
  · simp at hcurrency

/-- `Constraints()`. -/
def Constraints.default : Constraints := ⟨{}, rfl, rfl⟩

instance : Inhabited Constraints := ⟨.default⟩

/-! ## Claims -/

/-- The signed payload of a Capability Token. -/
structure ClaimFields where
  iss : Units
  sub : Units
  capabilities : List Units
  constraints : Constraints := .default
  iat : ℤ
  exp : ℤ
  jti : Units
  dlg : Option Units := none
  prf : Option Units := none
  deriving DecidableEq

/-- The checks of the model; exp must be greater than iat. -/
def ClaimFields.valid (f : ClaimFields) : Bool :=
  nonEmptyText f.iss && nonEmptyText f.sub && f.capabilities ≠ [] &&
    f.capabilities.all (fun c => c ≠ []) && |f.iat| ≤ maxSafe && |f.exp| ≤ maxSafe &&
    nonEmptyText f.jti && f.iat < f.exp && f.dlg.all (fun s => s ≠ []) && f.prf.all fun s => s ≠ []

/-- `CapabilityClaims`. -/
structure CapabilityClaims extends ClaimFields where
  valid : toClaimFields.valid = true
  deriving DecidableEq

theorem CapabilityClaims.iat_lt_exp (c : CapabilityClaims) : c.iat < c.exp := by
  have h := c.valid
  simp only [ClaimFields.valid, Bool.and_eq_true, decide_eq_true_eq] at h
  exact h.1.1.2

theorem CapabilityClaims.abs_exp_le (c : CapabilityClaims) : |c.exp| ≤ maxSafe := by
  have h := c.valid
  simp only [ClaimFields.valid, Bool.and_eq_true, decide_eq_true_eq] at h
  exact h.1.1.1.1.2

/-! ## Validation -/

/-- The model of these fields, when they pass its checks. -/
def Constraints.make? (f : ConstraintFields) : Option Constraints :=
  if h : f.valid = true ∧ f.dictLike = true then some ⟨f, h.1, h.2⟩ else none

/-- The model of these fields, when they pass its checks. -/
def CapabilityClaims.make? (f : ClaimFields) : Option CapabilityClaims :=
  if h : f.valid = true then some ⟨f, h⟩ else none

/-- A strict `str`. -/
def strictStr : Option Value → Option Units
  | some (.str s) => some s
  | _ => none

/-- A strict `Optional[str]` that defaults to `None`. -/
def strictOptStr : Option Value → Option (Option Units)
  | none => some none
  | some (.scalar .none) => some none
  | some (.str s) => some (some s)
  | _ => none

/-- A strict `int`; a `bool` is none. -/
def strictInt : Option Value → Option ℤ
  | some (.scalar (.int n)) => some n
  | _ => none

/-- A strict `Optional[int]` that defaults to `None`. -/
def strictOptInt : Option Value → Option (Option ℤ)
  | none => some none
  | some (.scalar .none) => some none
  | some (.scalar (.int n)) => some (some n)
  | _ => none

/-- A strict `Optional[float]` that defaults to `None`; integers convert. -/
def strictOptFloat : Option Value → Option (Option Double)
  | none => some none
  | some (.scalar .none) => some none
  | some (.scalar (.float d)) => some (some d)
  | some (.scalar (.int n)) => some (some (.ofInt n))
  | _ => none

/-- A strict `dict[str, Any]` that defaults to `{}`. -/
def strictDict : Option Value → Option Dict
  | none => some []
  | some (.obj ms) => some ms
  | _ => none

/-- A strict `list[str]`. -/
def strictStrs : Option Value → Option (List Units)
  | some (.arr items) => items.mapM fun v => strictStr (some v)
  | _ => none

/-- `extra: forbid`. -/
def onlyKeys (fields : List Units) (d : Dict) : Bool := d.all fun m => m.1 ∈ fields

/-- Strict validation of an object as `Constraints`. -/
def validateConstraints (d : Dict) : Option Constraints := do
  guard (onlyKeys ["max_calls", "max_amount_usd", "rate_limit_per_min", "allowed_params",
    "shared_budget"] d)
  Constraints.make? {
    maxCalls := ← strictOptInt (d.get? "max_calls")
    maxAmountUsd := ← strictOptFloat (d.get? "max_amount_usd")
    rateLimitPerMin := ← strictOptInt (d.get? "rate_limit_per_min")
    allowedParams := ← strictDict (d.get? "allowed_params")
    sharedBudget := ← strictOptStr (d.get? "shared_budget") }

/-- The field `constraints`, which defaults to `Constraints()`. -/
def strictConstraints : Option Value → Option Constraints
  | none => some .default
  | some (.obj d) => validateConstraints d
  | _ => none

/-- `CapabilityClaims.model_validate` of a payload with a `jti`. -/
def modelValidate (d : Dict) : Option CapabilityClaims := do
  guard (onlyKeys ["iss", "sub", "capabilities", "constraints", "iat", "exp", "jti", "dlg", "prf"] d)
  CapabilityClaims.make? {
    iss := ← strictStr (d.get? "iss")
    sub := ← strictStr (d.get? "sub")
    capabilities := ← strictStrs (d.get? "capabilities")
    constraints := ← strictConstraints (d.get? "constraints")
    iat := ← strictInt (d.get? "iat")
    exp := ← strictInt (d.get? "exp")
    jti := ← strictStr (d.get? "jti")
    dlg := ← strictOptStr (d.get? "dlg")
    prf := ← strictOptStr (d.get? "prf") }

/-! ## The signed object -/

/-- A value, or `None`. -/
def orNone {α : Type} (f : α → Value) : Option α → Value
  | none => .none
  | some a => f a

/-- A member that is left out when absent. -/
def optMember {α : Type} (key : Units) (f : α → Value) : Option α → Dict
  | none => []
  | some a => [(key, f a)]

/-- The constraints as signed: without an absent shared budget. -/
def constraintsWireDict (c : ConstraintFields) : Dict :=
  [(lit "max_calls", orNone (fun n => .scalar (.int n)) c.maxCalls),
    (lit "max_amount_usd", orNone (fun d => .scalar (.float d)) c.maxAmountUsd),
    (lit "rate_limit_per_min", orNone (fun n => .scalar (.int n)) c.rateLimitPerMin),
    (lit "allowed_params", .obj c.allowedParams)] ++ optMember "shared_budget" .str c.sharedBudget

/-- `claims_wire_dict`: absent delegation claims are omitted. -/
def claimsWireDict (c : ClaimFields) : Dict :=
  [(lit "iss", .str c.iss), (lit "sub", .str c.sub),
    (lit "capabilities", .arr (c.capabilities.map .str)),
    (lit "constraints", .obj (constraintsWireDict c.constraints.toConstraintFields)),
    (lit "iat", .scalar (.int c.iat)), (lit "exp", .scalar (.int c.exp)), (lit "jti", .str c.jti)] ++
    optMember "dlg" .str c.dlg ++ optMember "prf" .str c.prf

/-! ## What is signed is validated -/

/-- A dict as its signed form reads: members in the order of their code points. -/
def Dict.sorted (d : Dict) : Dict :=
  Json.Tree.sortMembers codePoints (d.map fun m => (m.1, m.2.canon codePoints))

theorem Dict.canon_obj (d : Dict) :
    (Json.Tree.obj d : Value).canon codePoints = .obj d.sorted := Json.Tree.canon_obj ..

theorem Dict.sorted_perm (d : Dict) :
    d.sorted.Perm (d.map fun m => (m.1, m.2.canon codePoints)) := Json.Tree.sortMembers_perm ..

theorem Dict.keys_sorted (d : Dict) : (d.sorted.map Prod.fst).Perm (d.map Prod.fst) := by
  have h := d.sorted_perm.map Prod.fst
  rwa [List.map_map] at h

theorem Dict.nodup_keys {d : Dict} (h : Json.Tree.keysNodup (.obj d : Value) = true) :
    (d.map Prod.fst).Nodup := by
  rw [Json.Tree.keysNodup_obj, Bool.and_eq_true, decide_eq_true_eq] at h
  exact h.1

/-- Sorting does not move a key's value. -/
theorem Dict.get?_sorted {d : Dict} (hd : (d.map Prod.fst).Nodup) (key : Units) :
    d.sorted.get? key = (d.get? key).map (Json.Tree.canon codePoints) := by
  have hs : (d.sorted.map Prod.fst).Nodup := d.keys_sorted.nodup_iff.mpr hd
  cases h : d.get? key with
  | some v =>
      refine Dict.get?_of_mem hs (d.sorted_perm.mem_iff.mpr ?_)
      exact List.mem_map.mpr ⟨_, Dict.mem_of_get? h, rfl⟩
  | none =>
      cases hs' : d.sorted.get? key with
      | none => rfl
      | some v =>
          have hmem := d.keys_sorted.mem_iff.mp (List.mem_map.mpr ⟨_, Dict.mem_of_get? hs', rfl⟩)
          have hhas := Dict.has_iff.mpr hmem
          simp [Dict.has, h] at hhas

theorem Dict.all_sorted (p : Units → Value → Bool) (hp : ∀ k v, p k (v.canon codePoints) = p k v)
    (d : Dict) : (d.sorted.all fun m => p m.1 m.2) = d.all fun m => p m.1 m.2 := by
  rw [d.sorted_perm.all_eq, List.all_map]
  exact Json.Tree.all_congr_mem fun m _ => hp m.1 m.2

/-- The constraints as their signed form reads. -/
def ConstraintFields.sorted (f : ConstraintFields) : ConstraintFields :=
  { f with allowedParams := f.allowedParams.sorted }

theorem safeMinor_canon (v : Option Value) :
    safeMinor (v.map (Json.Tree.canon codePoints)) = safeMinor v := by
  rcases v with _ | (s | s | items | members) <;> simp [safeMinor]

theorem ConstraintFields.dictLike_sorted (f : ConstraintFields) :
    f.sorted.dictLike = f.dictLike := by
  simp only [dictLike, sorted]
  rw [← Dict.canon_obj, Json.Tree.keysNodup_canon]

theorem ConstraintFields.valid_sorted {f : ConstraintFields} (hf : f.dictLike = true) :
    f.sorted.valid = f.valid := by
  have hget := Dict.get?_sorted (Dict.nodup_keys hf)
  have hparams : (f.allowedParams.sorted.all fun m => m.2.allScalars validScalar) =
      f.allowedParams.all fun m => m.2.allScalars validScalar :=
    Dict.all_sorted (fun _ v => v.allScalars validScalar)
      (fun _ v => Json.Tree.allScalars_canon codePoints validScalar v) f.allowedParams
  have hpins : budgetPins f.sorted = budgetPins f := by
    simp only [budgetPins, sorted, hget, safeMinor_canon]
    cases f.sharedBudget with
    | none => rfl
    | some budget =>
        simp only
        congr 1
        · congr 1
          rcases f.allowedParams.get? "budget_id" with _ | (s | s | items | members) <;> simp
        · rcases f.allowedParams.get? "currency" with _ | (s | s | items | members) <;> simp
  simp only [valid]
  rw [hpins, show f.sorted.allowedParams = f.allowedParams.sorted from rfl, hparams]
  rfl

/-- The constraints as their signed form reads. -/
def Constraints.sorted (c : Constraints) : Constraints :=
  ⟨c.toConstraintFields.sorted, by rw [ConstraintFields.valid_sorted c.dictLike, c.valid],
    by rw [ConstraintFields.dictLike_sorted, c.dictLike]⟩

/-- The claims as their signed form reads. -/
def CapabilityClaims.sorted (c : CapabilityClaims) : CapabilityClaims :=
  ⟨{ c.toClaimFields with constraints := c.constraints.sorted }, c.valid⟩

theorem Constraints.make?_self (c : Constraints) : Constraints.make? c.toConstraintFields = some c := by
  rw [make?, dif_pos ⟨c.valid, c.dictLike⟩]

theorem CapabilityClaims.make?_self (c : CapabilityClaims) :
    CapabilityClaims.make? c.toClaimFields = some c := by
  rw [make?, dif_pos c.valid]

theorem nodup_constraintsWireDict (f : ConstraintFields) :
    ((constraintsWireDict f).map Prod.fst).Nodup := by
  rcases f with ⟨_, _, _, _, _ | _⟩ <;>
    simp only [constraintsWireDict, optMember, List.map_append, List.map_cons, List.map_nil] <;> decide

theorem nodup_claimsWireDict (f : ClaimFields) : ((claimsWireDict f).map Prod.fst).Nodup := by
  rcases f with ⟨_, _, _, _, _, _, _, _ | _, _ | _⟩ <;>
    simp only [claimsWireDict, optMember, List.map_append, List.map_cons, List.map_nil] <;> decide

theorem onlyKeys_sorted (fields : List Units) (d : Dict) :
    onlyKeys fields d.sorted = onlyKeys fields d :=
  Dict.all_sorted (fun k _ => k ∈ fields) (fun _ _ => rfl) d

theorem get?_constraintsWireDict (f : ConstraintFields) :
    Dict.get? (constraintsWireDict f) "max_calls" =
        some (orNone (fun n => .scalar (.int n)) f.maxCalls) ∧
      Dict.get? (constraintsWireDict f) "max_amount_usd" =
        some (orNone (fun d => .scalar (.float d)) f.maxAmountUsd) ∧
      Dict.get? (constraintsWireDict f) "rate_limit_per_min" =
        some (orNone (fun n => .scalar (.int n)) f.rateLimitPerMin) ∧
      Dict.get? (constraintsWireDict f) "allowed_params" = some (.obj f.allowedParams) ∧
      Dict.get? (constraintsWireDict f) "shared_budget" = f.sharedBudget.map .str := by
  rcases f with ⟨_, _, _, _, _ | _⟩ <;> refine ⟨rfl, rfl, rfl, rfl, rfl⟩

theorem get?_claimsWireDict (f : ClaimFields) :
    Dict.get? (claimsWireDict f) "iss" = some (.str f.iss) ∧
      Dict.get? (claimsWireDict f) "sub" = some (.str f.sub) ∧
      Dict.get? (claimsWireDict f) "capabilities" = some (.arr (f.capabilities.map .str)) ∧
      Dict.get? (claimsWireDict f) "constraints" =
        some (.obj (constraintsWireDict f.constraints.toConstraintFields)) ∧
      Dict.get? (claimsWireDict f) "iat" = some (.scalar (.int f.iat)) ∧
      Dict.get? (claimsWireDict f) "exp" = some (.scalar (.int f.exp)) ∧
      Dict.get? (claimsWireDict f) "jti" = some (.str f.jti) ∧
      Dict.get? (claimsWireDict f) "dlg" = f.dlg.map .str ∧
      Dict.get? (claimsWireDict f) "prf" = f.prf.map .str := by
  rcases f with ⟨_, _, _, _, _, _, _, _ | _, _ | _⟩ <;>
    refine ⟨rfl, rfl, rfl, rfl, rfl, rfl, rfl, rfl, rfl⟩

theorem strictOptInt_orNone (o : Option ℤ) :
    strictOptInt (some ((orNone (fun n => .scalar (.int n)) o).canon codePoints)) = some o := by
  cases o <;> rfl

theorem strictOptFloat_orNone (o : Option Double) :
    strictOptFloat (some ((orNone (fun d => .scalar (.float d)) o).canon codePoints)) = some o := by
  cases o <;> rfl

theorem strictOptStr_map (o : Option Units) :
    strictOptStr ((o.map Json.Tree.str).map (Json.Tree.canon codePoints)) = some o := by
  cases o <;> rfl

theorem strictStrs_map (l : List Units) :
    strictStrs (some ((Json.Tree.arr (l.map Json.Tree.str) : Value).canon codePoints)) = some l := by
  rw [Json.Tree.canon_arr, List.map_map, strictStrs]
  induction l with
  | nil => rfl
  | cons s l ih =>
      rw [List.map_cons, List.mapM_cons, ih]
      rfl

theorem validateConstraints_wire (c : Constraints) :
    validateConstraints (constraintsWireDict c.toConstraintFields).sorted = some c.sorted := by
  obtain ⟨h1, h2, h3, h4, h5⟩ := get?_constraintsWireDict c.toConstraintFields
  have hget := Dict.get?_sorted (nodup_constraintsWireDict c.toConstraintFields)
  have hkeys : onlyKeys ["max_calls", "max_amount_usd", "rate_limit_per_min", "allowed_params",
      "shared_budget"] (constraintsWireDict c.toConstraintFields) = true := by
    rcases c with ⟨⟨_, _, _, _, _ | _⟩, _, _⟩ <;> rfl
  simp only [validateConstraints, onlyKeys_sorted, hkeys, hget, h1, h2, h3, h4, h5, Option.map_some,
    strictOptInt_orNone, strictOptFloat_orNone, strictOptStr_map, Dict.canon_obj, strictDict,
    guard_true, Option.pure_def, Option.bind_eq_bind, Option.bind_some]
  exact c.sorted.make?_self

/-- **Validating what is signed gives the claims back**, their pins in sorted order. -/
theorem modelValidate_wire (c : CapabilityClaims) :
    modelValidate (claimsWireDict c.toClaimFields).sorted = some c.sorted := by
  obtain ⟨h1, h2, h3, h4, h5, h6, h7, h8, h9⟩ := get?_claimsWireDict c.toClaimFields
  have hget := Dict.get?_sorted (nodup_claimsWireDict c.toClaimFields)
  have hkeys : onlyKeys ["iss", "sub", "capabilities", "constraints", "iat", "exp", "jti", "dlg",
      "prf"] (claimsWireDict c.toClaimFields) = true := by
    rcases c with ⟨⟨_, _, _, _, _, _, _, _ | _, _ | _⟩, _⟩ <;> rfl
  simp only [modelValidate, onlyKeys_sorted, hkeys, hget, h1, h2, h3, h4, h5, h6, h7, h8, h9,
    Option.map_some, strictStrs_map, strictOptStr_map, Dict.canon_obj, Json.Tree.canon_str,
    Json.Tree.canon_scalar, strictStr, strictInt, strictConstraints, validateConstraints_wire,
    guard_true, Option.pure_def, Option.bind_eq_bind, Option.bind_some]
  exact c.sorted.make?_self

end SwarmAuth.Python
