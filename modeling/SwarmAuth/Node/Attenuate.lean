import SwarmAuth.Node.Signed

/-!
# Attenuation in Node

`attenuate` in `index.js` compares a child with its parent and signs it. The child is what
the caller asked for: its capabilities and limits are compared, never validated. Its
capabilities are whatever a loop can go over: an array, but also a string or a `Set`.

## Main definitions

* `Capabilities` — a value, and what a loop takes of it.
* `requireTtl`, `assertAttenuatedObject`, `attenuate` — the functions, on values of any kind.
* `Narrowed` — a token that is read to the child that was signed, within its parent.
* `attenuate_iff` — when a token that is returned is read so.
-/
namespace SwarmAuth.Node

open Js Interop

/-! ## The functions -/

/-- An integer from 1 to `MAX_TTL_SECONDS`. -/
def validTtl : Value → Bool
  | .scalar (.number d) => isInteger d && lessThan (.ofInt 0) d && !lessThan (.ofInt 30) d
  | _ => false

/-- `requireTtl`. -/
def requireTtl (ttlSeconds : Value) : Outcome Unit :=
  raiseIf (!validTtl ttlSeconds) (.error "ttlSeconds must be an integer from 1 to 30")

/-- `capabilityCovered` of a value: only a string has `startsWith`. -/
def capabilityCoveredValue (capability : Value) (granted : List Units) : Outcome Bool :=
  match capability with
  | .str s => .ok (capabilityCovered s granted)
  | _ =>
      if granted.any fun item => [58, 42].isSuffixOf item then
        .error (.typeError "capability.startsWith is not a function")
      else .ok false

/-- `limitIsWider` of a value. -/
def limitIsWiderValue (child : Value) (parent : Option Double) : Bool :=
  match parent, child with
  | none, _ => false
  | some p, .scalar (.number c) => !isFinite c || lessThan p c
  | some _, _ => true

/-- The position a key names in a list of this length. -/
def indexOf (key : Units) (length : ℕ) : Option ℕ :=
  (List.range length).find? fun i => (natText i).map UInt16.ofNat = key

/-- The own property that `Object.hasOwn` and indexing find. -/
def ownProperty (value : Value) (key : Units) : Option Value :=
  match value with
  | .obj members => members.lookup key
  | .arr items =>
      if key = lit "length" then some (number items.length)
      else (indexOf key items.length).bind fun i => items[i]?
  | .str s =>
      if key = lit "length" then some (number s.length)
      else (indexOf key s.length).bind fun i => s[i]?.map fun u => .str [u]
  | .scalar _ => none

/-- A pin of the parent that a value keeps. -/
def keepsPinValue (allowed : Value) (key : Units) (expected : Value) : Bool :=
  match ownProperty allowed key with
  | some value => jsonEqual value expected
  | none => false

/-- The capabilities that a caller asks for. An object's own iterator gives its values each time
it is asked for them (a `Set`'s the same ones, a generator's once). -/
structure Capabilities where
  value : Value
  iterator : Option (ℕ → List Value) := none
  nodup : value.keysNodup = true

/-- What `for (… of value)` takes: an array's elements, a string's code points, or what an object's
own iterator gives. -/
def elements (own : Option (List Value)) : Value → Outcome (List Value)
  | .arr items => .ok (items.map Value.element)
  | .str s => .ok ((codePoints s).map fun c => .str (unitsOf c))
  | .obj _ | .scalar .other => orRaise own (.typeError "capabilities is not iterable")
  | .scalar _ => .error (.typeError "capabilities is not iterable")

/-- The capabilities that the loop of this turn takes. -/
def Capabilities.items (c : Capabilities) (turn : ℕ) : Outcome (List Value) :=
  elements (c.iterator.map fun it => it turn) c.value

/-- `assertAttenuated` of a child that was not validated, its capabilities given by an iterator of
their own where they have one. -/
def assertAttenuatedObject (parent : Claims) (child : Object) (own : Option (List Value)) :
    Outcome Unit := do
  let constraints := objectOr (child.get "constraints")
  raiseIf (truthy parent.prf) (delegation "Only one delegation hop is allowed")
  raiseIf (!truthy parent.dlg || child.get "iss" ≠ .str (parent.dlg.getD []))
    (delegation "Parent token does not authorize the child to attenuate it")
  raiseIf (child.get "jti" = .str parent.jti) (delegation "Parent and child token IDs must differ")
  raiseIf (truthyValue (child.get "dlg"))
    (delegation "An attenuated token cannot itself be delegated further")
  raiseIf (child.get "sub" ≠ .str parent.sub) (delegation "Attenuated token retargets audience")
  raiseIf (numberLt (child.get "iat") (.scalar (.number parent.iat)) ||
      numberLt (.scalar (.number parent.exp)) (child.get "exp"))
    (delegation "Attenuated token lifetime is outside the parent token's lifetime")
  let items ← elements own (child.get "capabilities")
  forM items fun capability => do
    let covered ← capabilityCoveredValue capability parent.capabilities
    raiseIf (!covered) (delegation "Attenuated capability exceeds the parent grant")
  raiseIf (parent.constraints.sharedBudget ≠ none ∧
      constraints.get "shared_budget" ≠ .str (parent.constraints.sharedBudget.getD []))
    (delegation "Attenuated token drops or changes shared budget")
  forM parent.constraints.limits fun l =>
    raiseIf (limitIsWiderValue (constraints.get (lit l.1)) l.2)
      (delegation ("Attenuated " ++ l.1 ++ " widens the parent limit"))
  forM parent.constraints.allowedParams fun m =>
    raiseIf (!keepsPinValue (orElse (constraints.get "allowed_params") (.obj [])) m.1 m.2)
      (delegation "Attenuated token drops or changes pinned parameter")

/-- What a caller of `attenuate` asks for. Constraints that are not given are none; an object
has no key twice. -/
structure AttenuateRequest where
  iss : Value
  capabilities : Capabilities
  constraints : Object := []
  ttlSeconds : Value := number 10
  nodup : (Json.Tree.obj constraints : Value).keysNodup = true

/-- The child that is signed, at the clock read `clock`. -/
def childOf (parent : Units) (claims : Claims) (clock : ℚ) (random : Bytes) (r : AttenuateRequest) :
    Object :=
  let now : Double := .ofInt ⌊clock⌋
  [(lit "iss", r.iss), (lit "sub", .str claims.sub), (lit "capabilities", r.capabilities.value),
    (lit "constraints", .obj (emptyConstraintsObject r.constraints)),
    (lit "iat", .scalar (.number now)),
    (lit "exp", .scalar (.number (plus now ((numberOf r.ttlSeconds).getD .nan)))),
    (lit "jti", .str (b64urlEncode random)), (lit "prf", .str parent)]

/-- `attenuate`, with a key's signature and the key, and 16 random octets. -/
def attenuate (sign : Bytes → Bytes) (publicKey : Bytes) (clock : ℚ) (random : Bytes)
    (parent : Units) (r : AttenuateRequest) : Outcome Units := do
  requireTtl r.ttlSeconds
  let p ← parse parent
  checkLifetime p.claims.iat p.claims.exp (.ofInt 0) (.ofInt ⌊clock⌋)
  let child := childOf parent p.claims clock random r
  assertAttenuatedObject p.claims child (r.capabilities.iterator.map fun it => it 0)
  signToken sign publicKey child

/-- **A token that is read to what was signed**, by claims within the parent's. -/
def Narrowed (parent : Claims) (child : Object) (token : Units) : Prop :=
  ∃ p, SignedAs child token p ∧ assertAttenuated parent p.claims = .ok ()

/-! ## The child -/

theorem exists_int_of_validTtl {v : Value} (h : validTtl v = true) :
    ∃ (d : Double) (n : ℤ), v = .scalar (.number d) ∧ d.value? = some (n : ℚ) ∧ 0 < n ∧ n ≤ 30 := by
  cases v with
  | scalar w =>
      cases w with
      | number d =>
          rw [validTtl, Bool.and_eq_true, Bool.and_eq_true, Bool.not_eq_true'] at h
          obtain ⟨⟨hinteger, hpos⟩, hmax⟩ := h
          cases hd : d.value? with
          | none => simp [isInteger, hd] at hinteger
          | some q =>
              simp only [isInteger, hd, Option.any_some, decide_eq_true_eq] at hinteger
              have hq : q = (q.num : ℚ) := (Rat.coe_int_num_of_den_eq_one hinteger).symm
              have hzero : (Double.ofInt 0).value? = some ((0 : ℤ) : ℚ) := value_ofInt (by norm_num)
              have hthirty : (Double.ofInt 30).value? = some ((30 : ℤ) : ℚ) := value_ofInt (by norm_num)
              rw [lessThan_value hzero hd, decide_eq_true_eq, hq, Int.cast_lt] at hpos
              rw [lessThan_value hthirty hd, decide_eq_false_iff_not, hq, Int.cast_lt, not_lt] at hmax
              exact ⟨d, q.num, rfl, by rw [hd, ← hq], hpos, hmax⟩
      | _ => cases h
  | _ => cases h

theorem requireTtl_eq_ok {v : Value} : requireTtl v = .ok () ↔ validTtl v = true := by
  rw [requireTtl, raiseIf_eq_ok, Bool.not_eq_true', Bool.not_eq_false]

/-- A safe number nearest to an integer is that integer. -/
theorem eq_of_safe_nearestTo {n : ℤ} {y : ℚ} (h : (nearestTo n).value? = some y)
    (hy : |y| ≤ 2 ^ 53 - 1) : y = n := by
  by_cases hn : |n| ≤ 2 ^ 53
  · rw [nearestTo_intCast hn] at h
    exact (Option.some.inj h).symm
  · exfalso
    have hlarge : Binary64.pow53.value ≤ |(n : ℚ)| := by
      rw [Binary64.value_pow53]
      have : (2 : ℤ) ^ 53 ≤ |n| := by omega
      exact_mod_cast this
    rw [nearestTo, Double.nearest] at h
    split at h
    · next mag hmag =>
        have hle := Binary64.le_ofRat hlarge hmag
        rw [Binary64.value_pow53] at hle
        have habs : |y| = mag.value := by
          rw [Double.value?, Option.some.injEq] at h
          rw [← h]
          split_ifs
          · rw [abs_neg, abs_of_nonneg mag.value_nonneg]
          · exact abs_of_nonneg mag.value_nonneg
        rw [habs] at hy
        linarith
    · cases h

theorem exists_int_of_isSafeInteger {d : Double} (h : isSafeInteger d = true) :
    ∃ k : ℤ, d.value? = some (k : ℚ) ∧ |k| ≤ 2 ^ 53 - 1 := by
  rw [isSafeInteger, Option.any_eq_true] at h
  obtain ⟨q, hq, hsafe⟩ := h
  obtain ⟨hden, habs⟩ := by simpa using hsafe
  have hint : (q.num : ℚ) = q := Rat.coe_int_num_of_den_eq_one hden
  refine ⟨q.num, by rw [hint]; exact hq, ?_⟩
  rw [← hint] at habs
  exact_mod_cast habs

/-- What `checkLifetime` leaves of a parent, at a whole second and without leeway. -/
theorem now_of_checkLifetime {iat exp : Double} {m : ℤ}
    (h : checkLifetime iat exp (.ofInt 0) (.ofInt m) = .ok ()) :
    ∃ b : ℤ, exp.value? = some (b : ℚ) ∧ |b| ≤ 2 ^ 53 - 1 ∧ |m| ≤ 2 ^ 53 - 1 := by
  simp only [checkLifetime, raiseIf_bind_eq_ok, raiseIf_eq_ok, Bool.or_eq_true, Bool.not_eq_true',
    not_or, Bool.not_eq_false, Bool.not_eq_true] at h
  obtain ⟨⟨⟨hiat, hexp⟩, -⟩, ⟨-, hfinite⟩, -, hearly, hlate⟩ := h
  obtain ⟨a, ha, habs⟩ := exists_int_of_isSafeInteger hiat
  obtain ⟨b, hb, hbbs⟩ := exists_int_of_isSafeInteger hexp
  obtain ⟨y, hy⟩ := Option.isSome_iff_exists.mp ((isFinite_eq _).symm.trans hfinite)
  have hzero : (Double.ofInt 0).value? = some ((0 : ℤ) : ℚ) := value_ofInt (by norm_num)
  have hminus : (minus iat (.ofInt 0)).value? = some (a : ℚ) := by
    rw [minus, ha, hzero]
    simp only [Int.cast_zero, sub_zero]
    exact nearestTo_intCast (by omega)
  have hplus : (plus exp (.ofInt 0)).value? = some (b : ℚ) := by
    rw [plus, hb, hzero]
    simp only [Int.cast_zero, add_zero]
    exact nearestTo_intCast (by omega)
  rw [lessThan_value hy hminus, decide_eq_false_iff_not, not_lt] at hearly
  rw [lessThan_value hplus hy, decide_eq_false_iff_not, not_lt] at hlate
  have hbound : |y| ≤ 2 ^ 53 - 1 := by
    have ha' : |(a : ℚ)| ≤ 2 ^ 53 - 1 := by exact_mod_cast habs
    have hb' : |(b : ℚ)| ≤ 2 ^ 53 - 1 := by exact_mod_cast hbbs
    rw [abs_le] at ha' hb' ⊢
    exact ⟨ha'.1.trans hearly, hlate.trans hb'.2⟩
  rw [nearestTo_ofInt] at hy
  have hm : y = m := eq_of_safe_nearestTo hy hbound
  rw [hm] at hbound
  exact ⟨b, hb, hbbs, by exact_mod_cast hbound⟩

/-- The times of a child within its parent's are safe integers. -/
theorem times_of_child {iat exp d : Double} {m n : ℤ}
    (h : checkLifetime iat exp (.ofInt 0) (.ofInt m) = .ok ()) (hd : d.value? = some (n : ℚ))
    (hpos : 0 < n) (hmax : n ≤ 30) (hwithin : lessThan exp (plus (.ofInt m) d) = false) :
    (Double.ofInt m).value? = some (m : ℚ) ∧ |m| ≤ 2 ^ 53 - 1 ∧
      (plus (.ofInt m) d).value? = some ((m + n : ℤ) : ℚ) ∧ |m + n| ≤ 2 ^ 53 - 1 := by
  obtain ⟨b, hb, hbbs, hm⟩ := now_of_checkLifetime h
  have hnow : (Double.ofInt m).value? = some (m : ℚ) := value_ofInt (by omega)
  have hplus : plus (.ofInt m) d = nearestTo ((m + n : ℤ) : ℚ) := by
    rw [plus, hnow, hd, Int.cast_add]
  have hsmall : |((m + n : ℤ) : ℚ)| < (2 : ℚ) ^ (1023 : ℤ) := by
    refine abs_intCast_lt ?_
    rw [abs_le] at hm ⊢
    omega
  have hle : (m : ℚ) ≤ ((m + n : ℤ) : ℚ) := by exact_mod_cast (by omega : m ≤ m + n)
  obtain ⟨y, hy, hlow⟩ := le_nearestTo hnow hsmall hle
  rw [hplus, lessThan_value hb hy, decide_eq_false_iff_not, not_lt] at hwithin
  have hbound : |y| ≤ 2 ^ 53 - 1 := by
    have hm' : |(m : ℚ)| ≤ 2 ^ 53 - 1 := by exact_mod_cast hm
    have hb' : |(b : ℚ)| ≤ 2 ^ 53 - 1 := by exact_mod_cast hbbs
    rw [abs_le] at hm' hb' ⊢
    exact ⟨hm'.1.trans hlow, hwithin.trans hb'.2⟩
  have hsum : y = ((m + n : ℤ) : ℚ) := eq_of_safe_nearestTo hy hbound
  rw [hsum] at hy hbound
  exact ⟨hnow, hm, hplus ▸ hy, by exact_mod_cast hbound⟩

theorem exists_str_of_covered {v : Value} {granted : List Units}
    (h : capabilityCoveredValue v granted = .ok true) : ∃ s, v = .str s ∧ capabilityCovered s granted = true := by
  cases v with
  | str s => exact ⟨s, rfl, Except.ok.inj h⟩
  | _ =>
      simp only [capabilityCoveredValue] at h
      split_ifs at h
      cases h

theorem eq_str_of_element {v : Value} {s : Units} (h : v.element = .str s) : v = .str s := by
  cases v with
  | scalar w => cases w <;> cases h
  | _ => exact h

/-- The capabilities of a child that was compared are strings, and none is empty. -/
theorem strings_of_covered {items : List Value} {granted : List Units}
    (hgranted : ∀ g ∈ granted, g ≠ [])
    (h : ∀ item ∈ items, capabilityCoveredValue item.element granted = .ok true) :
    ∀ item ∈ items, nonEmptyString item = true := by
  intro item hitem
  obtain ⟨s, hs, hcovered⟩ := exists_str_of_covered (h item hitem)
  rw [eq_str_of_element hs]
  simp only [capabilityCovered, Wildcard.coveredBy, List.any_eq_true] at hcovered
  obtain ⟨g, hg, hcovers⟩ := hcovered
  refine decide_eq_true fun hnil => ?_
  rw [hnil, Wildcard.covers_iff] at hcovers
  rcases hcovers with hsame | ⟨hstar, hprefix⟩
  · exact hgranted g hg hsame.symm
  · obtain ⟨stem, -, hstem⟩ := Wildcard.dropLast_of_suffix hstar
    rw [hstem, List.prefix_nil] at hprefix
    simp at hprefix

/-! ## The parent -/

/-- What is known of the claims of a token that parses. -/
structure ParsedClaims (claims : Claims) : Prop where
  sub : claims.sub ≠ []
  capabilities : ∀ g ∈ claims.capabilities, g ≠ []
  pins : (Json.Tree.obj claims.constraints.allowedParams : Value).keysNodup = true

theorem parsedClaims_of {token : Units} {p : Parsed} (h : parse token = .ok p) :
    token ≠ [] ∧ ParsedClaims p.claims := by
  obtain ⟨header, payload, signature, o, hsegments, hpayload, hvalid, hclaims⟩ := parse_eq_ok h
  have hnodup := keysNodup_decodePart hpayload
  simp only [validateObject, raiseIf_bind_eq_ok, Bool.not_eq_true', Bool.not_eq_false] at hvalid
  obtain ⟨hfields, -⟩ := hvalid
  simp only [validFields, Bool.and_eq_true] at hfields
  obtain ⟨⟨⟨⟨⟨⟨⟨-, -⟩, hsub⟩, -⟩, hcapabilities⟩, -⟩, -⟩, -⟩ := hfields
  rw [hclaims]
  refine ⟨?_, ?_, ?_, ?_⟩
  · rintro rfl
    cases hsegments
  · rw [readClaims]
    generalize Object.get o "sub" = v at hsub ⊢
    cases v with
    | str s => exact of_decide_eq_true hsub
    | _ => cases hsub
  · rw [readClaims]
    generalize Object.get o "capabilities" = v at hcapabilities ⊢
    cases v with
    | arr items =>
        simp only [Bool.and_eq_true, List.all_eq_true] at hcapabilities
        intro g hg
        obtain ⟨item, hitem, hstring⟩ := List.mem_filterMap.mp hg
        have hne := hcapabilities.2 item hitem
        cases item with
        | str s =>
            obtain rfl : s = g := Option.some.inj hstring
            exact of_decide_eq_true hne
        | _ => cases hstring
    | _ => simp
  · have hobject : ∀ {v : Value}, v.keysNodup = true →
        (Json.Tree.obj (objectOr v) : Value).keysNodup = true := by
      intro v hv
      cases v with
      | obj ms => exact hv
      | _ => rfl
    exact hobject (keysNodup_get (hobject (keysNodup_get hnodup _)) _)

/-! ## The child against its parent -/

section Child
variable {parent : Units} {claims : Claims} {clock : ℚ} {random : Bytes} {r : AttenuateRequest}

/-- What `attenuate` has established of a child when it signs it. -/
structure Compared (parent : Units) (claims : Claims) (clock : ℚ) (random : Bytes)
    (r : AttenuateRequest) : Prop where
  dlg : ∃ d, claims.dlg = some d ∧ d ≠ [] ∧ r.iss = .str d
  times : ∃ (m n : ℤ) (d : Double), r.ttlSeconds = .scalar (.number d) ∧
    d.value? = some (n : ℚ) ∧ 0 < n ∧ (Double.ofInt ⌊clock⌋).value? = some (m : ℚ) ∧ |m| ≤ 2 ^ 53 - 1 ∧
    (plus (.ofInt ⌊clock⌋) d).value? = some ((m + n : ℤ) : ℚ) ∧ |m + n| ≤ 2 ^ 53 - 1
  strings : ∀ items, r.capabilities.value = .arr items → ∀ item ∈ items, nonEmptyString item = true
  accepted : assertAttenuatedObject claims (childOf parent claims clock random r)
    (r.capabilities.iterator.map fun it => it 0) = .ok ()

theorem compared_of {sign : Bytes → Bytes} {publicKey : Bytes} {token : Units} {p : Parsed}
    (hp : parse parent = .ok p) (h : attenuate sign publicKey clock random parent r = .ok token) :
    Compared parent p.claims clock random r ∧
      signToken sign publicKey (childOf parent p.claims clock random r) = .ok token := by
  simp only [attenuate, bind_eq_ok, hp, Except.ok.injEq, exists_eq_left'] at h
  obtain ⟨_, httl, _, hlife, _, haccepted, hsigned⟩ := h
  refine ⟨?_, hsigned⟩
  have haccept := haccepted
  simp only [assertAttenuatedObject, raiseIf_bind_eq_ok] at haccept
  obtain ⟨-, hdlg, -, -, -, htimes, haccept⟩ := haccept
  obtain ⟨taken, htaken, haccept⟩ := bind_eq_ok.mp haccept
  simp only [forM_bind_eq_ok] at haccept
  obtain ⟨hcovered, -⟩ := haccept
  obtain ⟨d, n, hd, hvalue, hpos, hmax⟩ := exists_int_of_validTtl (requireTtl_eq_ok.mp httl)
  refine ⟨?_, ?_, ?_, haccepted⟩
  · rw [Bool.or_eq_true, not_or, Bool.not_eq_true', Bool.not_eq_false, decide_eq_true_eq, not_not] at hdlg
    obtain ⟨htrue, hiss⟩ := hdlg
    cases hd : p.claims.dlg with
    | none =>
        rw [hd] at htrue
        cases htrue
    | some d =>
        rw [hd] at htrue hiss
        exact ⟨d, rfl, of_decide_eq_true htrue, hiss⟩
  · rw [Bool.or_eq_true, not_or, Bool.not_eq_true, Bool.not_eq_true] at htimes
    have hexp : lessThan p.claims.exp (plus (.ofInt ⌊clock⌋) d) = false := by
      have hlate := htimes.2
      rw [show (childOf parent p.claims clock random r).get "exp" =
        .scalar (.number (plus (.ofInt ⌊clock⌋) ((numberOf r.ttlSeconds).getD .nan))) from rfl, hd] at hlate
      exact hlate
    exact ⟨⌊clock⌋, n, d, hd, hvalue, hpos, times_of_child hlife hvalue hpos hmax hexp⟩
  · intro items hitems
    have hget : (childOf parent p.claims clock random r).get "capabilities" = .arr items := hitems
    rw [hget, elements, Except.ok.injEq] at htaken
    refine strings_of_covered (parsedClaims_of hp).2.capabilities fun item hitem => ?_
    obtain ⟨covered, hvalue, hraise⟩ :=
      bind_eq_ok.mp (hcovered item.element (htaken ▸ List.mem_map_of_mem hitem))
    rw [raiseIf_eq_ok, Bool.not_eq_true', Bool.not_eq_false] at hraise
    rw [hvalue, hraise]

/-- A child that was compared is valid when it has a capability and valid constraints. -/
theorem validateObject_childOf (hc : Compared parent claims clock random r)
    (hclaims : ParsedClaims claims) (hne : parent ≠ []) (hrandom : random.length = 16)
    (hcapabilities : ∃ items, r.capabilities.value = .arr items ∧ items ≠ [])
    (hlimits : validateConstraints (emptyConstraintsObject r.constraints) = .ok ()) :
    validateObject (childOf parent claims clock random r) = .ok () := by
  obtain ⟨d, -, hd, hiss⟩ := hc.dlg
  obtain ⟨m, n, ttl, httl, -, hpos, hnow, hm, hexp, hsum⟩ := hc.times
  have hjti : b64urlEncode random ≠ [] := by
    intro hnil
    rw [b64urlEncode_eq_nil hnil] at hrandom
    cases hrandom
  have hsafeNow : isSafeInteger (.ofInt ⌊clock⌋) = true := by
    rw [isSafeInteger_value hnow]
    exact decide_eq_true hm
  have hsafeExp : isSafeInteger (plus (.ofInt ⌊clock⌋) ttl) = true := by
    rw [isSafeInteger_value hexp]
    exact decide_eq_true hsum
  have hlt : lessThan (.ofInt ⌊clock⌋) (plus (.ofInt ⌊clock⌋) ttl) = true := by
    rw [lessThan_value hnow hexp]
    exact decide_eq_true (by exact_mod_cast (by omega : m < m + n))
  obtain ⟨items, hitems, hsome⟩ := hcapabilities
  have hstrings : (items ≠ [] && items.all fun item => item = Value.hole || nonEmptyString item) = true := by
    rw [Bool.and_eq_true, List.all_eq_true]
    refine ⟨decide_eq_true hsome, fun item hitem => ?_⟩
    rw [hc.strings items hitems item hitem, Bool.or_true]
  rw [childOf, hiss, httl, hitems]
  simp only [validateObject, raiseIf_bind_eq_ok, Bool.not_eq_true', Bool.not_eq_false, validFields,
    Bool.and_eq_true]
  refine ⟨⟨⟨⟨⟨⟨⟨⟨rfl, decide_eq_true hd⟩, decide_eq_true hclaims.sub⟩, decide_eq_true hjti⟩, ?_⟩, hsafeNow⟩,
    hsafeExp⟩, hlt⟩, ?_, ?_, hlimits⟩
  · exact hstrings
  · exact fun hbad => Bool.noConfusion hbad.1
  · have hprf : nonEmptyString (.str parent) = true := decide_eq_true hne
    exact fun hbad => Bool.noConfusion (hprf.symm.trans hbad.2)

theorem keysNodup_childOf (hc : Compared parent claims clock random r) :
    (Json.Tree.obj (childOf parent claims clock random r) : Value).keysNodup = true := by
  obtain ⟨d, -, -, hiss⟩ := hc.dlg
  have hconstraints := keysNodup_emptyConstraints r.nodup
  have hcapabilities := r.capabilities.nodup
  rw [childOf, hiss, Json.Tree.keysNodup_obj, Bool.and_eq_true, decide_eq_true_eq]
  refine ⟨by simp only [List.map_cons, List.map_nil]; decide, ?_⟩
  simp only [List.all_cons, List.all_nil, hconstraints, hcapabilities, Json.Tree.keysNodup_str,
    Json.Tree.keysNodup_scalar, Bool.and_self]

/-- Defaults are put in once. -/
theorem withDefaults_childOf :
    withDefaults (childOf parent claims clock random r) = childOf parent claims clock random r := by
  have hget : (childOf parent claims clock random r).get "constraints" =
      .obj (emptyConstraintsObject r.constraints) := rfl
  rw [withDefaults, hget, objectOr, emptyConstraints_idem]
  rfl

end Child

/-! ## The child that is read -/

theorem limitIsWider_alike {a b : Value} (h : Alike a b) (ha : Numeric a) (parent : Option Double) :
    limitIsWider (numberOf a) parent = limitIsWiderValue b parent := by
  have hvalue : limitIsWiderValue a parent = limitIsWiderValue b parent := by
    refine h.congr (f := fun v => limitIsWiderValue v parent) (fun d e hde => ?_)
      (fun _ _ _ => by cases parent <;> rfl) fun _ _ _ => by cases parent <;> rfl
    cases parent with
    | none => rfl
    | some p =>
        have hfinite : isFinite d = isFinite e := by rw [isFinite_eq, isFinite_eq, hde]
        rw [limitIsWiderValue, limitIsWiderValue, ← hfinite]
        cases hd : isFinite d with
        | false => rfl
        | true => rw [lessThan_congr rfl (denote_eq hde hd)]
  rw [← hvalue]
  cases ha with
  | null => cases parent <;> rfl
  | undefined => cases parent <;> rfl
  | number d => cases parent <;> rfl

/-- A pin that a child keeps is kept by what is read of it. -/
theorem keepsPin_alike {pins pins' : Object} {key : Units} {expected : Value}
    (h : Alike (.obj pins) (.obj pins')) (hp : (Json.Tree.obj pins : Value).allScalars portable = true)
    (hexpected : expected.keysNodup = true) (hkeeps : keepsPinValue (.obj pins') key expected = true) :
    keepsPin pins key expected = true := by
  rw [keepsPinValue, ownProperty] at hkeeps
  cases hv : pins'.lookup key with
  | none =>
      rw [hv] at hkeeps
      cases hkeeps
  | some v =>
      rw [hv] at hkeeps
      obtain ⟨u, hu, hview, hvnodup, hunodup⟩ := h.symm.lookup hv
      have hu' : u.allScalars portable = true := allScalars_member hp (m := (key, u))
        ((Json.Tree.lookup_eq_some_iff (keys_nodup h.left)).mp hu)
      have hv' : v.allScalars portable = true := (portable_of_view hview).trans hu'
      have hequal : jsonEqual v expected = true := hkeeps
      rw [jsonEqual_iff_viewOf hv' hvnodup hexpected, hview] at hequal
      rw [keepsPin, hu]
      exact (jsonEqual_iff_viewOf hu' hunodup hexpected).mpr hequal

section Reading
variable {o child : Object}

/-- The capabilities that are read are covered when those of the child are. -/
theorem covered_of_read (h : Alike (.obj o) (.obj child))
    (hp : (Json.Tree.obj o : Value).allScalars portable = true) (hvalid : validateObject o = .ok ())
    {granted : List Units} {own : Option (List Value)} {taken : List Value}
    (htaken : elements own (child.get "capabilities") = .ok taken)
    (hcovered : ∀ item ∈ taken, capabilityCoveredValue item granted = .ok true) :
    ∀ c ∈ (readClaims o).capabilities, capabilityCovered c granted = true := by
  obtain ⟨items, hitems, -, hstrings⟩ := items_of_valid hvalid hp
  have hsame := h.get hp "capabilities"
  rw [hitems] at hsame
  obtain ⟨ys, hys, hviews⟩ := hsame.arr
  rw [strings_of_view hviews hstrings] at hys
  rw [hys, elements, Except.ok.injEq] at htaken
  intro capability hcapability
  rw [readClaims, hitems] at hcapability
  obtain ⟨item, hitem, hstring⟩ := List.mem_filterMap.mp hcapability
  have hcover := hcovered item.element (htaken ▸ List.mem_map_of_mem hitem)
  cases item with
  | str s =>
      obtain rfl : s = capability := Option.some.inj hstring
      exact Except.ok.inj hcover
  | _ => cases hstring

/-- A pin that the child keeps is kept by what is read. -/
theorem keepsPin_of_read (h : Alike (.obj o) (.obj child))
    (hp : (Json.Tree.obj o : Value).allScalars portable = true) (hvalid : validateObject o = .ok ())
    {key : Units} {expected : Value} (hexpected : expected.keysNodup = true)
    (hkept : keepsPinValue
      (orElse (Object.get (objectOr (child.get "constraints")) "allowed_params") (.obj [])) key expected = true) :
    keepsPin (readClaims o).constraints.allowedParams key expected = true := by
  have hplain := portable_get hp "constraints"
  have hallowed := ((h.get hp "constraints").objectOr).get hplain "allowed_params"
  have hread : (readClaims o).constraints.allowedParams =
      objectOr (Object.get (objectOr (o.get "constraints")) "allowed_params") := rfl
  rw [hread]
  refine keepsPin_alike hallowed.objectOr (portable_get hplain _) hexpected ?_
  have hobject : orElse (Object.get (objectOr (child.get "constraints")) "allowed_params") (.obj []) =
      .obj (objectOr (Object.get (objectOr (child.get "constraints")) "allowed_params")) := by
    obtain hnone | ⟨pins, hpin, -⟩ := (limits_of_valid hvalid).allowedParams
    · rw [hallowed.absent.mp hnone]
      rfl
    · rw [hpin] at hallowed
      obtain ⟨ns, hns⟩ := hallowed.obj
      rw [hns]
      rfl
  rwa [hobject] at hkept

end Reading

/-- **What is read of a child that was accepted is accepted.** -/
theorem attenuated_of_read {parent : Claims} {o child : Object} (h : Alike (.obj o) (.obj child))
    (hp : (Json.Tree.obj o : Value).allScalars portable = true) (hvalid : validateObject o = .ok ())
    (hpins : (Json.Tree.obj parent.constraints.allowedParams : Value).keysNodup = true)
    {own : Option (List Value)} (haccepted : assertAttenuatedObject parent child own = .ok ()) :
    assertAttenuated parent (readClaims o) = .ok () := by
  have hclaims := validClaims_of hvalid (wholeArrays_of_portable hp)
  have hlimits := (h.get hp "constraints").objectOr
  have hplain := portable_get hp "constraints"
  simp only [assertAttenuatedObject, raiseIf_bind_eq_ok] at haccepted
  obtain ⟨hprf, hdlg, hjti, hchain, hsub, htimes, haccepted⟩ := haccepted
  obtain ⟨taken, htaken, haccepted⟩ := bind_eq_ok.mp haccepted
  simp only [raiseIf_bind_eq_ok, forM_bind_eq_ok, forM_eq_ok, raiseIf_eq_ok] at haccepted
  obtain ⟨hcovered, hbudget, hwider, hkeeps⟩ := haccepted
  simp only [assertAttenuated, raiseIf_bind_eq_ok, forM_bind_eq_ok, forM_eq_ok, raiseIf_eq_ok]
  refine ⟨hprf, ?_, ?_, ?_, ?_, ?_, ?_, ?_, ?_, ?_⟩
  · rw [Bool.or_eq_true, not_or, decide_eq_true_eq, not_not] at hdlg
    have hiss := h.get hp "iss"
    rw [hdlg.2] at hiss
    cases hd : parent.dlg with
    | none =>
        rw [hd] at hdlg
        exact absurd rfl hdlg.1
    | some d =>
        rw [hd] at hiss hdlg
        have hread : (readClaims o).iss = d := by rw [readClaims, hiss.symm.str]; rfl
        rw [hread, Bool.or_eq_true, not_or]
        exact ⟨hdlg.1, by simp⟩
  · obtain ⟨s, hs⟩ := hclaims.jti
    have hsame := h.get hp "jti"
    rw [hs] at hsame
    have hread : (readClaims o).jti = s := by rw [readClaims, hs]; rfl
    rw [hread]
    exact fun hbad => hjti (by rw [hsame.str, hbad])
  · have hsame := h.get hp "dlg"
    rw [readClaims]
    have hd := hclaims.dlg
    generalize Object.get o "dlg" = v at hsame hd
    cases hd with
    | null => exact Bool.false_ne_true
    | undefined => exact Bool.false_ne_true
    | str s hs =>
        rw [hsame.str] at hchain
        exact absurd (decide_eq_true hs) hchain
  · rw [not_not] at hsub ⊢
    have hsame := h.get hp "sub"
    rw [hsub] at hsame
    rw [readClaims, hsame.symm.str]
    rfl
  · obtain ⟨d, hd, hdfinite⟩ := hclaims.iat
    obtain ⟨e, he, hefinite⟩ := hclaims.exp
    have hiat := h.get hp "iat"
    have hexp := h.get hp "exp"
    rw [hd] at hiat
    rw [he] at hexp
    obtain ⟨d', hd', hdvalue⟩ := hiat.number
    obtain ⟨e', he', hevalue⟩ := hexp.number
    have hreadIat : (readClaims o).iat = d := by rw [readClaims, hd]; rfl
    have hreadExp : (readClaims o).exp = e := by rw [readClaims, he]; rfl
    rw [hd', he', numberLt, numberLt] at htimes
    rw [hreadIat, hreadExp, lessThan_congr (denote_eq hdvalue hdfinite) rfl,
      lessThan_congr rfl (denote_eq hevalue hefinite)]
    exact htimes
  · intro capability hcapability
    rw [Bool.not_eq_true', Bool.not_eq_false]
    refine covered_of_read h hp hvalid htaken (fun item hitem => ?_) capability hcapability
    obtain ⟨covered, hvalue, hraise⟩ := bind_eq_ok.mp (hcovered item hitem)
    rw [raiseIf_eq_ok, Bool.not_eq_true', Bool.not_eq_false] at hraise
    rw [hvalue, hraise]
  · rintro ⟨hsome, hne⟩
    refine hbudget ⟨hsome, fun hsame => hne ?_⟩
    have hshared := hlimits.get hplain "shared_budget"
    rw [hsame] at hshared
    obtain ⟨b, hb⟩ := Option.ne_none_iff_exists'.mp hsome
    have hread : (readClaims o).constraints.sharedBudget =
        stringOf (Object.get (objectOr (o.get "constraints")) "shared_budget") := rfl
    rw [hread, hshared.symm.str, hb]
    rfl
  · have hnumeric := hclaims.constraints
    have hcalls := limitIsWider_alike (hlimits.get hplain "max_calls") hnumeric.maxCalls
    have hamount := limitIsWider_alike (hlimits.get hplain "max_amount_usd") hnumeric.maxAmountUsd
    have hrate := limitIsWider_alike (hlimits.get hplain "rate_limit_per_min") hnumeric.rateLimitPerMin
    simp only [Constraints.limits, List.forall_mem_cons, List.not_mem_nil, false_imp_iff, forall_const,
      and_true] at hwider
    have hread : (readClaims o).constraints =
        emptyConstraints (objectOr (o.get "constraints")) := rfl
    simp only [hread, Constraints.limits, emptyConstraints, List.zip_cons_cons, List.zip_nil_right,
      List.forall_mem_cons, List.not_mem_nil, false_imp_iff, forall_const, and_true, hcalls, hamount, hrate]
    exact hwider
  · intro m hm
    have hkept := hkeeps m hm
    rw [Bool.not_eq_true', Bool.not_eq_false] at hkept ⊢
    exact keepsPin_of_read h hp hvalid (keysNodup_member hpins hm) hkept

/-- Comparing what is written of a child is comparing the child. -/
theorem assertAttenuatedObject_wireBody (parent : Claims) (child : Object) (own : Option (List Value)) :
    assertAttenuatedObject parent (wireBody child) own = assertAttenuatedObject parent child own := by
  have hdlg : truthyValue (Object.get (wireBody child) (lit "dlg")) = truthyValue (child.get (lit "dlg")) := by
    rw [get_wireBody_optional child _ (Or.inl rfl)]
    split_ifs with htruthy
    · rfl
    · exact (Bool.eq_false_iff.mpr htruthy).symm
  rw [assertAttenuatedObject, assertAttenuatedObject, hdlg]
  rfl

/-! ## When a token is read to its child -/

/-- The pins of constraints that are given. -/
def pinsGiven (constraints : Object) : Value := orElse (constraints.get "allowed_params") (.obj [])

/-- A request for a child that the validator accepts, whose pins have no hole and no pattern. -/
structure AttenuateRequest.WellFormed (r : AttenuateRequest) : Prop where
  capabilities : ∃ items, r.capabilities.value = .arr items ∧ items ≠ []
  constraints : validateConstraints (emptyConstraintsObject r.constraints) = .ok ()
  whole : (pinsGiven r.constraints).whole = true
  pins : (pinsGiven r.constraints).allStrs patternFree = true

section Attenuated
variable {sign : Bytes → Bytes} {publicKey : Bytes} {clock : ℚ} {random : Bytes} {parent : Units}
  {r : AttenuateRequest} {p : Parsed} {token : Units}

theorem pinsOf_childOf : pinsOf (childOf parent p.claims clock random r) = pinsGiven r.constraints := by
  have hpins : Object.get (objectOr ((childOf parent p.claims clock random r).get "constraints"))
      "allowed_params" = orElse (r.constraints.get "allowed_params") (.obj []) := rfl
  rw [pinsOf, hpins, orElse_orElse, pinsGiven]

theorem pinsFree_childOf : pinsFree (childOf parent p.claims clock random r) =
    (pinsGiven r.constraints).allStrs patternFree := by
  rw [pinsFree, pinsOf_childOf]

/-- A child's arrays are whole when its pins are: its capabilities were compared. -/
theorem wholeArrays_childOf (hc : Compared parent p.claims clock random r)
    (hcapabilities : ∃ items, r.capabilities.value = .arr items ∧ items ≠ []) :
    wholeArrays (childOf parent p.claims clock random r) = (pinsGiven r.constraints).whole := by
  obtain ⟨items, hitems, -⟩ := hcapabilities
  have hwhole : Value.whole (.arr items) = true := by
    rw [Value.whole, Json.Tree.allScalars_arr, List.all_eq_true]
    intro item hitem
    have hstring := hc.strings items hitems item hitem
    cases item with
    | str s => rfl
    | _ => cases hstring
  have hget : (childOf parent p.claims clock random r).get "capabilities" = .arr items := hitems
  rw [wholeArrays, hget, hwhole, Bool.true_and, pinsOf_childOf]

theorem wellSet_childOf (hne : parent ≠ []) : WellSet (childOf parent p.claims clock random r) := by
  rintro key (rfl | rfl)
  · rfl
  · exact decide_eq_true hne

/-- **A token for a well-formed request is read to its child**, within its parent. -/
theorem read_of_wellFormed (hp : parse parent = .ok p) (hrandom : random.length = 16)
    (hsign : ∀ data, sign data ≠ [])
    (h : attenuate sign publicKey clock random parent r = .ok token) (hr : r.WellFormed) :
    ∃ q o, SignedAs (childOf parent p.claims clock random r) token q ∧ q.claims = readClaims o ∧
      ReadAs o (childOf parent p.claims clock random r) ∧ assertAttenuated p.claims q.claims = .ok () := by
  obtain ⟨hc, hsigned⟩ := compared_of hp h
  obtain ⟨hne, hclaims⟩ := parsedClaims_of hp
  have hvalid := validateObject_childOf hc hclaims hne hrandom hr.capabilities hr.constraints
  have hwhole := (wholeArrays_childOf hc hr.capabilities).trans hr.whole
  have hfree : pinsFree (childOf parent p.claims clock random r) = true := pinsFree_childOf.trans hr.pins
  obtain ⟨q, o, hs, hread, ho⟩ :=
    signedAs_of_free hsigned hsign (keysNodup_childOf hc) withDefaults_childOf hvalid hwhole hfree
  refine ⟨q, o, hs, hread, ho, ?_⟩
  rw [hread]
  exact attenuated_of_read ho.alike ho.portable ho.valid hclaims.pins
    ((assertAttenuatedObject_wireBody _ _ _).trans hc.accepted)

/-- **Only a well-formed request has its child read.** -/
theorem wellFormed_of_signedAs (hp : parse parent = .ok p) (hrandom : random.length = 16)
    (h : attenuate sign publicKey clock random parent r = .ok token) {q : Parsed}
    (hs : SignedAs (childOf parent p.claims clock random r) token q) : r.WellFormed := by
  obtain ⟨hc, hsigned⟩ := compared_of hp h
  obtain ⟨hne, hclaims⟩ := parsedClaims_of hp
  have hnodup := keysNodup_childOf hc
  obtain ⟨o, -, ho⟩ := readAs_of_signedAs hsigned hnodup withDefaults_childOf (wellSet_childOf hne) hs
  have hwritten := validateObject_alike ho.alike ho.portable ho.valid
  have hportable := (portable_of_view ho.alike.view).symm.trans ho.portable
  have hcapabilities : ∃ items, r.capabilities.value = .arr items ∧ items ≠ [] := by
    obtain ⟨items, hitems, hsome, -⟩ := items_of_valid hwritten hportable
    exact ⟨items, hitems, hsome⟩
  have hlimits : validateConstraints (emptyConstraintsObject r.constraints) = .ok () := by
    simp only [validateObject, raiseIf_bind_eq_ok] at hwritten
    exact hwritten.2.2.2
  have hvalid := validateObject_childOf hc hclaims hne hrandom hcapabilities hlimits
  obtain ⟨hwhole, hfree⟩ := free_of_signedAs hsigned hnodup withDefaults_childOf hvalid hs
  exact ⟨hcapabilities, hlimits, (wholeArrays_childOf hc hcapabilities).symm.trans hwhole,
    pinsFree_childOf.symm.trans hfree⟩

end Attenuated

/-! ## A sample -/

/-- Octets in place of a signature. -/
def sampleSign (_ : Bytes) : Bytes := List.replicate 64 7

/-- A root token that `bob` may attenuate. -/
def sampleParent : Units :=
  (signToken sampleSign (List.replicate 32 1)
    (samplePinned (.str (lit "alice")) ++ [(lit "dlg", .str (lit "bob"))])).toOption.getD []

/-- The limits `bob` asks for. -/
def sampleLimits : Object := [(lit "allowed_params", .obj [(lit "to", .str (lit "alice"))])]

theorem keysNodup_sampleLimits : (Json.Tree.obj sampleLimits : Value).keysNodup = true := rfl

/-- What `bob` asks for. -/
def sampleRequest (capabilities : Capabilities) : AttenuateRequest where
  iss := .str (lit "bob")
  capabilities := capabilities
  constraints := sampleLimits
  ttlSeconds := number 5
  nodup := keysNodup_sampleLimits

/-- An array of one capability. -/
def sampleCapabilities : Capabilities := ⟨.arr [.str (lit "mail:send")], none, rfl⟩

theorem exists_of_isOk {α : Type} {x : Outcome α} (h : x.isOk = true) : ∃ a, x = .ok a := by
  cases x with
  | ok a => exact ⟨a, rfl⟩
  | error e => cases h

/-- A child is signed whose capabilities are none, or are those of a `Set`. -/
example : (attenuate sampleSign (List.replicate 32 2) 1001 (List.replicate 16 3) sampleParent
      (sampleRequest ⟨.arr [], none, rfl⟩)).isOk = true ∧
    (attenuate sampleSign (List.replicate 32 2) 1001 (List.replicate 16 3) sampleParent
      (sampleRequest ⟨.obj [], some fun _ => [.str (lit "mail:send")], rfl⟩)).isOk = true := by
  decide +kernel

end SwarmAuth.Node
