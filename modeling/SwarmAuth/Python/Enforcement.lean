import SwarmAuth.Python.Verify
import SwarmAuth.Lib.Allowance
import SwarmAuth.Lib.Runs

/-!
# The execution boundary

`verify_and_check`: verification, the checks on the call, and the reservation of usage
with a tracker. A tracker is its state and its two methods; a call is its arguments and
the clock reads it makes. Time is rational: `exp + 3` and `now - 60` are exact on every
clock read that a double of the order of the epoch holds.

## Main definitions

* `validatedAmount`, `decimalSum` — `_validated_amount`, `_decimal_sum`.
* `Tracker`, `Call` — a usage backend and a call of `verify_and_check`.
* `verifyAndCheck` — `verify_and_check`.
* `accepted` — the accepted calls of a run.
* `callStep_cases` — an accepted call has made its reservation.
-/
namespace SwarmAuth.Python

/-! ## Amounts -/

/-- `ConstraintViolationError` of `_validated_amount`. -/
def invalidAmount (amount : Value) : PyError :=
  constraintViolation [.text "Amount ", .repr amount, .text " is not a finite, non-negative number"]
    "max_amount_usd"

/-- A finite number from zero on. The sign of `-0.0` is dropped, as every sum drops it. An
`int` that has a float is short enough for the message. -/
def finiteNonNegative (amount : Value) : Double → Outcome Binary64
  | .finite neg mag => if neg ∧ mag.sig ≠ 0 then .error (invalidAmount amount) else .ok mag
  | _ => .error (invalidAmount amount)

/-- `_validated_amount`: `float` of an `int` may overflow, and that is not caught. -/
def validatedAmount (amount : Value) : Outcome Binary64 :=
  match amount with
  | .scalar (.int n) =>
      match Double.ofInt n with
      | .inf _ => .error .overflowError
      | d => finiteNonNegative amount d
  | .scalar (.float d) => finiteNonNegative amount d
  | _ => .error (invalidAmount amount).formatted

/-- `Decimal(str(x))`. -/
def amountDecimal (x : Binary64) : Decimal := (floatLayout x.shortest).decimal

/-- `_decimal_sum`. -/
def decimalSum (left : Decimal) (right : Binary64) : Decimal := left.add 1000 (amountDecimal right)

/-- `Decimal(str(limit))`; limits are finite and not negative. -/
def limitDecimal : Double → Decimal
  | .finite _ mag => amountDecimal mag
  | _ => ⟨0, 0⟩

/-- The amounts beyond which a total is no longer exact. -/
def exactBelow : ℚ := 10 ^ (600 : ℤ)

theorem value_amountDecimal (x : Binary64) : (amountDecimal x).value = x.shortest.value :=
  value_floatLayout x.shortest

theorem le_exp_amountDecimal (x : Binary64) : -340 ≤ (amountDecimal x).exp := by
  have hexp := x.le_exp_shortest
  have hpos := natText_length_pos x.shortest.coeff
  simp only [amountDecimal, floatLayout]
  split_ifs
  · simp only [positional, Layout.decimal]
    split_ifs <;> simp only [Option.elim_none, List.length_append, List.length_replicate,
      List.length_drop, List.length_singleton] <;> omega
  · simp only [scientific, Layout.decimal, Option.elim_some, List.length_drop]
    omega

/-- A running total is exact until it passes `exactBelow`, and stays beyond from then on. -/
theorem min_le_value_decimalSum {spent : Decimal} (hexp : -340 ≤ spent.exp) (x : Binary64) :
    min (spent.value + (amountDecimal x).value) exactBelow ≤ (decimalSum spent x).value := by
  by_cases h : spent.value + (amountDecimal x).value < exactBelow
  · have hexact : (Decimal.add 1000 spent (amountDecimal x)).value = _ :=
      Decimal.value_add_of_lt h hexp (le_exp_amountDecimal x) (by norm_num)
    rw [decimalSum, hexact]
    exact min_le_left _ _
  · exact (min_le_right _ _).trans (Decimal.pow_le_value_add (by norm_num) (not_lt.mp h))

theorem le_exp_decimalSum {spent : Decimal} (hexp : -340 ≤ spent.exp) (x : Binary64) :
    -340 ≤ (decimalSum spent x).exp :=
  Decimal.le_exp_add 1000 hexp (le_exp_amountDecimal x)

theorem limitDecimal_lt (d : Double) : (limitDecimal d).value < exactBelow := by
  have hpow : (10 : ℚ) ^ (313 : ℤ) < exactBelow := zpow_lt_zpow_right₀ (by norm_num) (by norm_num)
  have hzero : (⟨0, 0⟩ : Decimal).value < exactBelow := by
    rw [Decimal.value, Nat.cast_zero, zero_mul]
    exact zpow_pos (by norm_num) _
  cases d with
  | finite neg mag => exact (value_amountDecimal mag ▸ mag.value_shortest_lt).trans hpow
  | inf neg => exact hzero
  | nan => exact hzero

/-- A validated amount is validated again to itself. -/
theorem validatedAmount_float (x : Binary64) :
    validatedAmount (.scalar (.float (.finite false x))) = .ok x := rfl

/-- The timestamps of the last sixty seconds. -/
def recentStamps (stamps : List ℚ) (now : ℚ) : List ℚ := stamps.filter fun t => now - 60 ≤ t

/-- What happened within the last sixty seconds is not forgotten. -/
theorem countP_recentStamps {stamps : List ℚ} {now t : ℚ} (ht : now - 60 ≤ t) :
    (recentStamps stamps now).countP (fun s => t ≤ s) = stamps.countP fun s => t ≤ s :=
  Allowance.countP_filter_le ht

/-! ## Trackers -/

/-- A usage backend: its methods reserve a verified chain at a clock read, or raise.
`check_and_record_chain` may be missing. -/
structure Tracker (σ : Type) where
  requiresChain : Bool := false
  supportsSharedBudgets : Bool := false
  checkAndRecord : CapabilityClaims → Value → ℚ → σ → Outcome Unit × σ
  checkAndRecordChain : Option (List CapabilityClaims → Value → ℚ → σ → Outcome Unit × σ)

/-- Authorization decision metadata. -/
structure AuthorizationEvent where
  decision : String
  code : Option String
  issuer : Option Units
  audience : Option Units
  capability : Option Units
  tokenId : Option Units
  deriving DecidableEq

/-- A call of `verify_and_check`: its arguments, and the clock reads at which the token,
its parent and the reservation are judged. `amount` is `None` when not given. -/
structure Call where
  token : Units
  issuerPublicKey : Option Bytes := none
  keyRegistry : Option KeyRegistry := none
  revoked : Units → Bool := fun _ => false
  audience : Option Units := none
  requiredCapability : Option Units := none
  amount : Value := .none
  params : Option Dict := none
  onDecision : Option (AuthorizationEvent → Outcome Unit) := none
  verifyTime : ℚ
  parentTime : ℚ
  reserveTime : ℚ

/-- The options `verify_and_check` verifies with. -/
def Call.verifyOptions (c : Call) : VerifyOptions :=
  { issuerPublicKey := c.issuerPublicKey, keyRegistry := c.keyRegistry, revoked := c.revoked,
    audience := c.audience }

/-- `_stateful`: the limits that need a tracker. -/
def stateful (claims : CapabilityClaims) : List String :=
  claims.constraints.limits.filterMap fun l => if l.2.isSome then some l.1 else none

/-- `", ".join(names)`. -/
def joinNames : List String → List Piece
  | [] => []
  | [name] => [.text name]
  | name :: names => .text name :: .text ", " :: joinNames names

/-- The amount as a float, zero when none is given. -/
def Call.resolvedAmount (c : Call) : Outcome Binary64 :=
  if c.amount = .none then .ok .zero else validatedAmount c.amount

/-- The checks on a verified call, up to the amount to charge. -/
def checkCall (c : Call) (supportsSharedBudgets hasTracker : Bool) (claims : CapabilityClaims) :
    Outcome Binary64 := do
  (match c.requiredCapability with
    | some required => checkCapability claims required
    | none => .ok ())
  raiseIf (claims.constraints.allowedParams ≠ [] ∧ c.params = none)
    (constraintViolation [.text "Token pins parameters but no params were provided"] "allowed_params")
  (match c.params with
    | some params => checkParams claims params
    | none => .ok ())
  raiseIf (claims.constraints.sharedBudget ≠ none ∧ supportsSharedBudgets = false)
    (constraintViolation [.text "Shared budget requires a budget-aware tracker"] "shared_budget")
  raiseIf (stateful claims ≠ [] ∧ hasTracker = false)
    (constraintViolation ([.text "Token declares "] ++ joinNames (stateful claims) ++
      [.text " but no usage tracker was provided"]) ((stateful claims).headD ""))
  raiseIf (claims.constraints.maxAmountUsd ≠ none ∧ c.amount = .none)
    (constraintViolation [.text "A budgeted call requires an explicit amount or amount_kwarg"]
      "max_amount_usd")
  c.resolvedAmount

/-- The claims of the parent token, parsed again. -/
def parentOf (claims : CapabilityClaims) : Outcome (Option CapabilityClaims) :=
  match claims.prf with
  | some prf => if prf = [] then .ok none else (fun r => some r.claims) <$> parse prf
  | none => .ok none

section Enforcement
variable {σ : Type} (ed : SignatureCheck) (tracker : Option (Tracker σ))

/-- The reservation: of parent and child together when the parent has limits or the
tracker asks for chains. -/
def Tracker.reserve (t : Tracker σ) (claims : CapabilityClaims) (amount : Value) (now : ℚ) (s : σ) :
    Outcome Unit × σ :=
  match parentOf claims with
  | .error e => (.error e, s)
  | .ok none => t.checkAndRecord claims amount now s
  | .ok (some parent) =>
      if stateful parent ≠ [] ∨ t.requiresChain = true then
        match t.checkAndRecordChain with
        | some record => record [parent, claims] amount now s
        | none => (.error (constraintViolation
            [.text "Delegated limits require a tracker with atomic check_and_record_chain"]
            "max_calls"), s)
      else t.checkAndRecord claims amount now s

/-- The checks and the reservation of a verified call. -/
def enforce (c : Call) (claims : CapabilityClaims) (s : σ) : Outcome Unit × σ :=
  match checkCall c (tracker.any Tracker.supportsSharedBudgets) tracker.isSome claims with
  | .error e => (.error e, s)
  | .ok amount =>
      match tracker with
      | some t => t.reserve claims (.scalar (.float (.finite false amount))) c.reserveTime s
      | none => (.ok (), s)

/-- A decision is reported before the call returns or raises. -/
def decide? {α : Type} (c : Call) (event : AuthorizationEvent) (result : Outcome α) : Outcome α :=
  match c.onDecision with
  | some report => report event >>= fun _ => result
  | none => result

/-- Only a `SwarmAuthError` is reported. -/
def denied (c : Call) (claims : Option CapabilityClaims) (e : PyError) : Outcome CapabilityClaims :=
  match e with
  | .swarmAuth cls _ _ _ _ =>
      decide? c ⟨"denied", some cls.code, claims.map (·.iss), c.audience, c.requiredCapability,
        claims.map (·.jti)⟩ (.error e)
  | _ => .error e

/-- `verify_and_check`. -/
def verifyAndCheck (c : Call) (s : σ) : Outcome CapabilityClaims × σ :=
  match verify ed c.verifyOptions c.token c.verifyTime c.parentTime with
  | .error e => (denied c none e, s)
  | .ok claims =>
      match enforce tracker c claims s with
      | (.error e, s') => (denied c (some claims) e, s')
      | (.ok (), s') =>
          (decide? c ⟨"allowed", none, some claims.iss, some claims.sub, c.requiredCapability,
            some claims.jti⟩ (.ok claims), s')

/-! ## Runs of calls -/

/-- An accepted call, with its claims. -/
structure Accepted where
  call : Call
  claims : CapabilityClaims

/-- The amount an accepted call charges. -/
def Accepted.amount (a : Accepted) : Binary64 :=
  match a.call.resolvedAmount with
  | .ok x => x
  | .error _ => .zero

/-- The chain of a verified token: its parent, if any, and itself. -/
def verifiedChain (claims : CapabilityClaims) : List CapabilityClaims :=
  match parentOf claims with
  | .ok (some parent) => [parent, claims]
  | _ => [claims]

/-- A step of a run of calls on one tracker; an accepted call is logged. -/
def callStep (s : σ) (c : Call) : Option Accepted × σ :=
  match verifyAndCheck ed tracker c s with
  | (.ok claims, s') => (some ⟨c, claims⟩, s')
  | (.error _, s') => (none, s')

/-- The accepted calls of a run, in order. -/
def accepted (s : σ) (calls : List Call) : List Accepted := Runs.log (callStep ed tracker) s calls

/-- The charge a reservation makes on each token of its chain. -/
def chargeOf (x : Binary64) (now : ℚ) : Allowance.Charge := ⟨(amountDecimal x).value, now⟩

/-- What the accepted calls charge to a token, each at its reservation. -/
def chargesTo (claims : CapabilityClaims) (log : List Accepted) : List Allowance.Charge :=
  log.filterMap fun a =>
    if claims ∈ verifiedChain a.claims then some (chargeOf a.amount a.call.reserveTime) else none

/-- The three limits of a token. -/
def limitsOf (calls : Option ℤ) (usd : Option Double) (rate : Option ℤ) : Allowance.Limits where
  calls := calls
  amount := usd.map fun d => (limitDecimal d).value
  rate := rate

/-- The allowance a token declares. -/
def allowance (claims : CapabilityClaims) : Allowance.Limits :=
  limitsOf claims.constraints.maxCalls claims.constraints.maxAmountUsd claims.constraints.rateLimitPerMin

end Enforcement

/-! ## What an accepted call has done -/

/-- The checks bind the parameters and resolve the amount. -/
theorem checkCall_ok {c : Call} {budgets hasTracker : Bool} {claims : CapabilityClaims} {x : Binary64}
    (h : checkCall c budgets hasTracker claims = .ok x) :
    (claims.constraints.allowedParams ≠ [] → c.params ≠ none) ∧
      (∀ params, c.params = some params → checkParams claims params = .ok ()) ∧
      (claims.constraints.sharedBudget ≠ none → budgets = true) ∧ c.resolvedAmount = .ok x := by
  obtain ⟨_, -, h⟩ := bind_eq_ok.mp h
  obtain ⟨hgiven, h⟩ := raiseIf_bind_eq_ok.mp h
  obtain ⟨_, hparams, h⟩ := bind_eq_ok.mp h
  obtain ⟨hbudget, h⟩ := raiseIf_bind_eq_ok.mp h
  obtain ⟨-, h⟩ := raiseIf_bind_eq_ok.mp h
  obtain ⟨-, h⟩ := raiseIf_bind_eq_ok.mp h
  refine ⟨fun hne hnone => hgiven ⟨hne, hnone⟩, ?_, ?_, h⟩
  · intro params hp
    rw [hp] at hparams
    exact hparams
  · intro hne
    by_contra hb
    exact hbudget ⟨hne, by simpa using hb⟩

theorem getLast?_verifiedChain (claims : CapabilityClaims) :
    (verifiedChain claims).getLast? = some claims := by
  unfold verifiedChain
  split <;> rfl

/-- A verified chain is the token and, if any, the parent it attenuates. -/
theorem attenuated_of_mem_verifiedChain {ed : SignatureCheck} {o : VerifyOptions} {token : Units}
    {time parentTime : ℚ} {claims T : CapabilityClaims}
    (hv : verify ed o token time parentTime = .ok claims) (hT : T ∈ verifiedChain claims) :
    T = claims ∨ Attenuated T claims := by
  unfold verifiedChain at hT
  split at hT
  · next parent hp =>
      rcases List.mem_cons.mp hT with rfl | hT
      · right
        rw [parentOf] at hp
        split at hp
        · next prf hprf =>
            obtain ⟨p, -, hcore, hatt⟩ := (verify_ok.mp hv).2.2.2.2 prf hprf
            obtain ⟨-, -, q, hq, rfl, -⟩ := verifyCore_ok.mp hcore
            by_cases hnil : prf = []
            · rw [if_pos hnil] at hp
              simp at hp
            · rw [if_neg hnil, hq] at hp
              obtain rfl := Option.some.inj (Except.ok.inj hp)
              exact hatt
        · simp at hp
      · exact Or.inl (List.mem_singleton.mp hT)
  · exact Or.inl (List.mem_singleton.mp hT)

theorem allowance_nonNeg (claims : CapabilityClaims) : (allowance claims).NonNeg := by
  have hv := claims.constraints.valid
  simp only [ConstraintFields.valid, Bool.and_eq_true, Option.all_eq_true] at hv
  have hpos : ∀ n, positiveSafe n = true → 0 ≤ n := by
    intro n hn
    simp only [positiveSafe, Bool.and_eq_true, decide_eq_true_eq] at hn
    omega
  refine ⟨fun n hn => hpos n (hv.1.1.1.1.1 n hn), ?_, fun n hn => hpos n (hv.1.1.1.2 n hn)⟩
  intro m hm
  obtain ⟨d, -, rfl⟩ := Option.map_eq_some_iff.mp hm
  exact (limitDecimal d).value_nonneg

/-- A token without limits declares no allowance. -/
theorem allowance_of_stateless {claims : CapabilityClaims} (h : stateful claims = []) :
    allowance claims = {} := by
  simp only [stateful, ConstraintFields.limits] at h
  simp only [allowance, limitsOf]
  cases hc : claims.constraints.maxCalls <;> cases ha : claims.constraints.maxAmountUsd <;>
    cases hr : claims.constraints.rateLimitPerMin <;> simp [hc, ha, hr] at h ⊢

/-- The checks a reservation makes on a record allow its charge. -/
theorem checks_iff_admits {calls rate : Option ℤ} {usd : Option Double} {x : Binary64} {now total : ℚ}
    {r : Allowance.Record} :
    (¬ (calls.any fun n : ℤ => n < r.calls + 1) = true ∧
      ¬ (usd.any fun d => (limitDecimal d).value < total) = true ∧
      ¬ (rate.any fun n : ℤ => n < (recentStamps r.stamps now).length + 1) = true) ↔
      Allowance.Admits 60 (limitsOf calls usd rate) (chargeOf x now) r total := by
  constructor
  · intro h
    obtain ⟨hcalls, hamount, hrate⟩ := h
    refine ⟨?_, ?_, ?_⟩
    · intro n hn
      have hn : calls = some n := hn
      simpa [hn] using hcalls
    · intro m hm
      obtain ⟨d, hd, rfl⟩ := Option.map_eq_some_iff.mp hm
      simpa [hd] using hamount
    · intro n hn
      have hn : rate = some n := hn
      simpa [hn, recentStamps, List.countP_eq_length_filter, chargeOf] using hrate
  · intro h
    obtain ⟨hcalls, hamount, hrate⟩ := h
    refine ⟨?_, ?_, ?_⟩
    · cases hn : calls with
      | none => simp
      | some n => simpa using hcalls n hn
    · cases hd : usd with
      | none => simp
      | some d => simpa using hamount (limitDecimal d).value (by simp [limitsOf, hd])
    · cases hn : rate with
      | none => simp
      | some n => simpa [recentStamps, List.countP_eq_length_filter, chargeOf] using hrate n hn

theorem limit_lt_exactBelow {claims : CapabilityClaims} {m : ℚ} (h : (allowance claims).amount = some m) :
    m < exactBelow := by
  obtain ⟨d, -, rfl⟩ := Option.map_eq_some_iff.mp h
  exact limitDecimal_lt d

theorem chargeOf_nonneg (x : Binary64) (now : ℚ) : 0 ≤ (chargeOf x now).amount :=
  (amountDecimal x).value_nonneg

theorem chargesTo_singleton (T : CapabilityClaims) {c : Call} {claims : CapabilityClaims}
    {x : Binary64} (h : c.resolvedAmount = .ok x) :
    chargesTo T [⟨c, claims⟩] =
      if decide (T ∈ verifiedChain claims) then [chargeOf x c.reserveTime] else [] := by
  by_cases hT : T ∈ verifiedChain claims <;> simp [chargesTo, Accepted.amount, hT, h]

theorem chargesTo_append (claims : CapabilityClaims) (log log' : List Accepted) :
    chargesTo claims (log ++ log') = chargesTo claims log ++ chargesTo claims log' :=
  List.filterMap_append

theorem denied_ne_ok {c : Call} {claims : Option CapabilityClaims} {e : PyError}
    {r : CapabilityClaims} : denied c claims e ≠ .ok r := by
  intro h
  cases e with
  | swarmAuth cls message constraint required granted =>
      rw [denied, decide?] at h
      split at h
      · obtain ⟨u, -, herr⟩ := bind_eq_ok.mp h
        exact error_ne_ok herr
      · exact error_ne_ok h
  | valueError message => exact error_ne_ok h
  | overflowError => exact error_ne_ok h

theorem decide?_ok {α : Type} {c : Call} {event : AuthorizationEvent} {a b : α}
    (h : decide? c event (.ok a) = .ok b) : a = b := by
  rw [decide?] at h
  split at h
  · obtain ⟨u, -, hok⟩ := bind_eq_ok.mp h
    exact Except.ok.inj hok
  · exact Except.ok.inj h

section Enforcement
variable {σ : Type}

/-- A call that returns made the reservation, and the reservation returned. -/
theorem verifyAndCheck_cases (ed : SignatureCheck) (t : Tracker σ) (c : Call) (s : σ) :
    (∃ e, verifyAndCheck ed (some t) c s = (.error e, s)) ∨
      ∃ claims amount, verify ed c.verifyOptions c.token c.verifyTime c.parentTime = .ok claims ∧
        checkCall c t.supportsSharedBudgets true claims = .ok amount ∧
        let reserved := t.reserve claims (.scalar (.float (.finite false amount))) c.reserveTime s
        (∃ e, verifyAndCheck ed (some t) c s = (.error e, reserved.2)) ∨
          reserved.1 = .ok () ∧ verifyAndCheck ed (some t) c s = (.ok claims, reserved.2) := by
  have hrefused : ∀ claims e, ∃ e', denied c claims e = .error e' := by
    intro claims e
    cases hd : denied c claims e with
    | error e' => exact ⟨e', rfl⟩
    | ok r => exact absurd hd denied_ne_ok
  cases hv : verify ed c.verifyOptions c.token c.verifyTime c.parentTime with
  | error e =>
      obtain ⟨e', he'⟩ := hrefused none e
      refine Or.inl ⟨e', ?_⟩
      rw [verifyAndCheck, hv]
      simp only [he']
  | ok claims =>
      cases hc : checkCall c t.supportsSharedBudgets true claims with
      | error e =>
          obtain ⟨e', he'⟩ := hrefused (some claims) e
          refine Or.inl ⟨e', ?_⟩
          simp only [verifyAndCheck, hv, enforce, Option.any_some, Option.isSome_some, hc, he']
      | ok amount =>
          refine Or.inr ⟨claims, amount, rfl, hc, ?_⟩
          rcases hres : t.reserve claims (.scalar (.float (.finite false amount))) c.reserveTime s with
            ⟨e | u, s₁⟩
          · obtain ⟨e', he'⟩ := hrefused (some claims) e
            refine Or.inl ⟨e', ?_⟩
            simp only [verifyAndCheck, hv, enforce, Option.any_some, Option.isSome_some, hc, hres, he']
          · have hcall : verifyAndCheck ed (some t) c s = (decide? c ⟨"allowed", none,
                some claims.iss, some claims.sub, c.requiredCapability, some claims.jti⟩
                (.ok claims), s₁) := by
              simp only [verifyAndCheck, hv, enforce, Option.any_some, Option.isSome_some, hc, hres]
            rw [hcall]
            cases hd : decide? c ⟨"allowed", none, some claims.iss, some claims.sub,
                c.requiredCapability, some claims.jti⟩ (.ok claims) with
            | error e => exact Or.inl ⟨e, rfl⟩
            | ok claims' =>
                rw [← decide?_ok hd]
                exact Or.inr ⟨rfl, rfl⟩

theorem callStep_of_error {ed : SignatureCheck} {t : Option (Tracker σ)} {c : Call} {s s' : σ}
    {e : PyError} (h : verifyAndCheck ed t c s = (.error e, s')) : callStep ed t s c = (none, s') := by
  rw [callStep, h]

theorem callStep_of_ok {ed : SignatureCheck} {t : Option (Tracker σ)} {c : Call} {s s' : σ}
    {claims : CapabilityClaims} (h : verifyAndCheck ed t c s = (.ok claims, s')) :
    callStep ed t s c = (some ⟨c, claims⟩, s') := by
  rw [callStep, h]

/-- **A step of a run**: the call is refused before it reaches the tracker, or it makes one
reservation for its verified claims and is logged only if that returned. -/
theorem callStep_cases (ed : SignatureCheck) (t : Tracker σ) (s : σ) (c : Call) :
    callStep ed (some t) s c = (none, s) ∨
      ∃ claims amount r s', verify ed c.verifyOptions c.token c.verifyTime c.parentTime = .ok claims ∧
        checkCall c t.supportsSharedBudgets true claims = .ok amount ∧
        t.reserve claims (.scalar (.float (.finite false amount))) c.reserveTime s = (r, s') ∧
        (callStep ed (some t) s c = (none, s') ∨
          r = .ok () ∧ callStep ed (some t) s c = (some ⟨c, claims⟩, s')) := by
  rcases verifyAndCheck_cases ed t c s with ⟨e, hcall⟩ | ⟨claims, amount, hv, hc, hcall⟩
  · exact Or.inl (callStep_of_error hcall)
  · rcases hpair : t.reserve claims (.scalar (.float (.finite false amount))) c.reserveTime s with ⟨r, s'⟩
    rw [hpair] at hcall
    refine Or.inr ⟨claims, amount, r, s', hv, hc, hpair, ?_⟩
    rcases hcall with ⟨e, hcall⟩ | ⟨hr, hcall⟩
    · exact Or.inl (callStep_of_error hcall)
    · exact Or.inr ⟨hr, callStep_of_ok hcall⟩

end Enforcement

/-! ## A call -/

/-- The sample root claims, for one call. -/
def sampleOnce : CapabilityClaims :=
  ⟨{ sampleClaims.toClaimFields with constraints := ⟨{ maxCalls := some 1 }, by decide, by decide⟩ },
    by decide⟩

/-- A call with a token of these claims, all its clock reads at `time`. -/
def sampleCall (claims : CapabilityClaims) (time : ℚ) : Call :=
  { token := sampleToken claims, keyRegistry := some ⟨sampleRegistry.keys, sampleRegistry.keys⟩,
    verifyTime := time, parentTime := time, reserveTime := time }

end SwarmAuth.Python
