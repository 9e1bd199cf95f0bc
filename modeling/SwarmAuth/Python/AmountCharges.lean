import SwarmAuth.Python.Decisions
import SwarmAuth.Python.Usage

/-!
# Amounts as charged

The amount of a budgeted call becomes a float and is charged as that float's shortest
decimal. A float is therefore charged as supplied. An integer is when its float is finite
and has the integer for its shortest decimal; else another number is charged, or `float`
raises an `OverflowError` that no handler expects. Nor does one expect the `ValueError` of a
parameter too long for the message that refuses it.

## Main definitions

* `OnlyRefuses` — whatever is raised is a `SwarmAuthError`.
* `Legible` — the refusal of a parameter can be written.
* `Reachable`, `total` — the tracker's states, and what a token has spent.
* `ChargedAsSupplied` — charged as supplied and allowed, or refused and not charged.
* `Convertible` — the condition on the call and the records.
* `charged_as_supplied_iff` — the one is the other.
-/
namespace SwarmAuth.Python

open Asyncio (refusal? refusal?_error)

/-! ## What is raised -/

/-- Whatever is raised is a `SwarmAuthError`. -/
def OnlyRefuses {α : Type} (r : Outcome α) : Prop := ∀ e, r = .error e → refusal? r ≠ none

section OnlyRefuses
variable {α β : Type}

theorem onlyRefuses_ok (a : α) : OnlyRefuses (.ok a : Outcome α) := fun _ h => nomatch h

theorem onlyRefuses_swarmAuth (cls : ErrorClass) (message : List Piece) (constraint : Option String)
    (required : Option Units) (granted : List Units) :
    OnlyRefuses (.error (.swarmAuth cls message constraint required granted) : Outcome α) := by
  intro _ _
  exact Option.some_ne_none cls

theorem OnlyRefuses.bind {x : Outcome α} {f : α → Outcome β} (hx : OnlyRefuses x)
    (hf : ∀ a, OnlyRefuses (f a)) : OnlyRefuses (x >>= f) := by
  cases x with
  | ok a => exact hf a
  | error e =>
      intro e' _
      have hclass : refusal? (.error e >>= f) = refusal? (.error e : Outcome α) := refusal?_error e
      rw [hclass]
      exact hx e rfl

theorem onlyRefuses_raiseIf {c : Prop} [Decidable c] {e : PyError}
    (he : refusal? (.error e : Outcome Unit) ≠ none) : OnlyRefuses (raiseIf c e) := by
  rw [raiseIf]
  split_ifs
  · exact fun _ _ => he
  · exact onlyRefuses_ok ()

theorem onlyRefuses_mapM {l : List α} {f : α → Outcome β} (h : ∀ a, OnlyRefuses (f a)) :
    OnlyRefuses (l.mapM f) := by
  induction l with
  | nil => exact onlyRefuses_ok []
  | cons a l ih =>
      rw [List.mapM_cons]
      exact (h a).bind fun b => ih.bind fun bs => onlyRefuses_ok (b :: bs)

end OnlyRefuses

/-- The value supplied for the first pin that is missed has no integer too long to write. -/
def Legible (claims : CapabilityClaims) (params : Dict) : Prop :=
  ∀ m, claims.constraints.allowedParams.find? (fun m => !pins params m.1 m.2) = some m →
    ((params.get? m.1).getD .none).allScalars shown = true

/-- The capability is granted, if one is required. -/
def Granted (c : Call) (claims : CapabilityClaims) : Prop :=
  ∀ required, c.requiredCapability = some required →
    capabilityCovered required claims.capabilities = true

/-- The checks on a sequence raise at the first that fails. -/
theorem forM_raiseIf {α : Type} (l : List α) (p : α → Bool) (e : α → PyError) :
    (forM l fun a => raiseIf (p a = true) (e a) : Outcome Unit) =
      match l.find? p with
      | some a => .error (e a)
      | none => .ok () := by
  induction l with
  | nil => rfl
  | cons a l ih =>
      rw [List.forM_cons, List.find?_cons]
      cases hp : p a with
      | true =>
          rw [raiseIf, if_pos rfl]
          rfl
      | false =>
          rw [raiseIf, if_neg Bool.false_ne_true]
          exact ih

theorem shown_of_validScalar {s : Scalar} (h : validScalar s = true) : shown s = true := by
  have hw := writable_of_validScalar h
  cases s with
  | int n => exact hw
  | none => rfl
  | bool b => rfl
  | float d => rfl

/-- `check_params` refuses what it can write. -/
theorem checkParams_refuses_iff (claims : CapabilityClaims) (params : Dict) :
    OnlyRefuses (checkParams claims params) ↔ Legible claims params := by
  rw [checkParams, forM_raiseIf, Legible]
  cases hfind : claims.constraints.allowedParams.find? fun m => !pins params m.1 m.2 with
  | none => exact iff_of_true (onlyRefuses_ok ()) fun _ h => absurd h.symm (Option.some_ne_none _)
  | some m =>
      have hm : m.2.allScalars shown = true := by
        have hv := claims.constraints.valid
        simp only [ConstraintFields.valid, Bool.and_eq_true, List.all_eq_true] at hv
        exact Json.Tree.allScalars_mono (fun _ => shown_of_validScalar)
          (hv.1.1.2 m (List.mem_of_find?_eq_some hfind))
      have hsome : (∀ m', some m = some m' →
          ((params.get? m'.1).getD .none).allScalars shown = true) ↔
            ((params.get? m.1).getD .none).allScalars shown = true := by
        constructor
        · exact fun h => h m rfl
        · intro h m' hm'
          rwa [← Option.some.inj hm']
      rw [hsome]
      by_cases hvalue : ((params.get? m.1).getD .none).allScalars shown = true
      · refine iff_of_true ?_ hvalue
        simp only [constraintViolation, PyError.formatted, List.all_cons, List.all_nil, Piece.formats,
          hvalue, hm, Bool.and_self, if_true]
        exact onlyRefuses_swarmAuth _ _ _ _ _
      · refine iff_of_false ?_ hvalue
        simp only [constraintViolation, PyError.formatted, List.all_cons, List.all_nil, Piece.formats,
          hvalue, Bool.false_and, Bool.and_false, Bool.false_eq_true, if_false]
        exact fun h => h _ rfl rfl

/-- The refusal of a pin can be written, if the call comes to it. -/
def LegibleCall (c : Call) (claims : CapabilityClaims) : Prop :=
  Granted c claims → ∀ params, c.params = some params → Legible claims params

/-- The checks on a call refuse, unless a message cannot be written or the conversion of its
amount raises. -/
theorem onlyRefuses_checkCall {c : Call} {budgets hasTracker : Bool} {claims : CapabilityClaims}
    (hlegible : LegibleCall c claims) (h : OnlyRefuses c.resolvedAmount) :
    OnlyRefuses (checkCall c budgets hasTracker claims) := by
  rw [checkCall]
  by_cases hgranted : Granted c claims
  · refine OnlyRefuses.bind ?_ fun _ => OnlyRefuses.bind (onlyRefuses_raiseIf nofun) fun _ =>
      OnlyRefuses.bind ?_ fun _ => OnlyRefuses.bind (onlyRefuses_raiseIf nofun) fun _ =>
      OnlyRefuses.bind (onlyRefuses_raiseIf nofun) fun _ =>
      OnlyRefuses.bind (onlyRefuses_raiseIf nofun) fun _ => h
    · split
      · rw [checkCapability]
        split_ifs
        · exact onlyRefuses_ok ()
        · exact onlyRefuses_swarmAuth _ _ _ _ _
      · exact onlyRefuses_ok ()
    · split
      · next params hparams =>
          exact (checkParams_refuses_iff claims params).mpr (hlegible hgranted params hparams)
      · exact onlyRefuses_ok ()
  · -- refused for its capability, before a parameter is looked at
    simp only [Granted, not_forall, Bool.not_eq_true] at hgranted
    obtain ⟨required, hrequired, hnot⟩ := hgranted
    rw [hrequired]
    simp only [checkCapability, hnot, Bool.false_eq_true, if_false]
    exact onlyRefuses_swarmAuth _ _ _ _ _

/-- A call whose checks refuse can be written. -/
theorem legible_of_onlyRefuses {c : Call} {budgets hasTracker : Bool} {claims : CapabilityClaims}
    (h : OnlyRefuses (checkCall c budgets hasTracker claims)) : LegibleCall c claims := by
  intro hgranted params hparams
  rw [← checkParams_refuses_iff]
  intro e he
  have hcheck : checkCall c budgets hasTracker claims = .error e := by
    cases hrequired : c.requiredCapability with
    | none =>
        simp only [checkCall, hrequired, hparams, he, raiseIf, reduceCtorEq, and_false, if_false]
        rfl
    | some required =>
        have hcapability := checkCapability_ok.mpr (hgranted required hrequired)
        simp only [checkCall, hrequired, hparams, he, hcapability, raiseIf, reduceCtorEq, and_false,
          if_false]
        rfl
  rw [he]
  have hrefused := h e hcheck
  rw [hcheck] at hrefused
  exact (refusal?_error e).trans_ne hrefused

/-- The same call with the amount `0.0`. -/
def Call.free (c : Call) : Call := { c with amount := .scalar (.float (.finite false .zero)) }

/-- The amount is looked at last. -/
theorem checkCall_eq {c : Call} {budgets hasTracker : Bool} {claims : CapabilityClaims}
    (hc : c.amount ≠ .none) :
    checkCall c budgets hasTracker claims =
      checkCall c.free budgets hasTracker claims >>= fun _ => validatedAmount c.amount := by
  have hresolved : c.resolvedAmount = validatedAmount c.amount := if_neg hc
  have hfree : c.free.amount ≠ .none := nofun
  have hzero : c.free.resolvedAmount = .ok .zero := rfl
  simp only [checkCall, bind_assoc, hresolved, hzero, hc, hfree, and_false]
  rfl

/-- An amount is refused, unless it is an integer whose float overflows. -/
theorem onlyRefuses_validatedAmount {amount : Scalar}
    (h : ∀ n neg, amount = .int n → Double.ofInt n ≠ .inf neg) :
    OnlyRefuses (validatedAmount (.scalar amount)) := by
  have hfloat : ∀ d, OnlyRefuses (finiteNonNegative (.scalar amount) d) := by
    intro d
    unfold finiteNonNegative
    split
    · split_ifs
      · exact onlyRefuses_swarmAuth _ _ _ _ _
      · exact onlyRefuses_ok _
    · exact onlyRefuses_swarmAuth _ _ _ _ _
  cases amount with
  | int n =>
      simp only [validatedAmount]
      split
      · next neg hinf => exact absurd hinf (h n neg rfl)
      · exact hfloat _
  | float d => exact hfloat d
  | none => exact onlyRefuses_swarmAuth _ _ _ _ _
  | bool b => exact onlyRefuses_swarmAuth _ _ _ _ _

theorem validatedAmount_overflow {n : ℤ} {neg : Bool} (h : Double.ofInt n = .inf neg) :
    validatedAmount (.scalar (.int n)) = .error .overflowError := by
  simp only [validatedAmount, h]

namespace UsageTracker
open Asyncio

/-! ## The reservation -/

theorem onlyRefuses_checkAndRecordChain (chain : List CapabilityClaims) (x : Binary64) (now : ℚ)
    (s : State) :
    OnlyRefuses (checkAndRecordChain chain (.scalar (.float (.finite false x))) now s).1 := by
  have hchain : OnlyRefuses (checkChain chain now) :=
    OnlyRefuses.bind (onlyRefuses_raiseIf (Option.some_ne_none _)) fun _ =>
      onlyRefuses_raiseIf (Option.some_ne_none _)
  have hpending : ∀ claims, OnlyRefuses (pendingUsage (s.purgeExpired now) x now claims) :=
    fun claims => OnlyRefuses.bind (onlyRefuses_raiseIf (Option.some_ne_none _)) fun _ =>
      OnlyRefuses.bind (onlyRefuses_raiseIf (Option.some_ne_none _)) fun _ =>
      OnlyRefuses.bind (onlyRefuses_raiseIf (Option.some_ne_none _)) fun _ => onlyRefuses_ok _
  have hchecks : (do let x ← validatedAmount (.scalar (.float (.finite false x)))
                     checkChain chain now; return x) =
      checkChain chain now >>= fun _ => (pure x : Outcome Binary64) := rfl
  rw [checkAndRecordChain, hchecks]
  cases hc : checkChain chain now with
  | error e =>
      rw [hc] at hchain
      exact fun e' _ => (refusal?_error e).trans_ne (hchain e rfl)
  | ok u =>
      have hpass : (Except.ok u >>= fun _ => (pure x : Outcome Binary64)) = .ok x := rfl
      have hall := onlyRefuses_mapM (l := chain) hpending
      rw [hpass]
      dsimp only
      cases hm : chain.mapM (pendingUsage (s.purgeExpired now) x now) with
      | error e =>
          rw [hm] at hall
          exact fun e' _ => (refusal?_error e).trans_ne (hall e rfl)
      | ok pending => exact onlyRefuses_ok ()

/-! ## What a token has spent -/

/-- The states that reservations lead to. -/
inductive Reachable : State → Prop
  | empty : Reachable .empty
  | reserve {s : State} (chain : List CapabilityClaims) (amount : Value) (now : ℚ) :
      Reachable s → Reachable (checkAndRecordChain chain amount now s).2

/-- The amount on a token's record, none without one. -/
def spent (s : State) (jti : Units) : ℚ := (s.get jti).spentAmount.value

/-- The amount on a record that has not expired. -/
def total (s : State) (now : ℚ) (jti : Units) : ℚ := spent (s.purgeExpired now) jti

section Totals
variable {s s' : State} {now : ℚ} {chain : List CapabilityClaims} {x : Binary64}

theorem Reachable.fine (h : Reachable s) :
    ∀ jti usage, s jti = some usage → -340 ≤ usage.spentAmount.exp := by
  induction h with
  | empty => exact fun _ _ hs => nomatch hs
  | @reserve s chain amount now _ ih =>
      rcases hr : checkAndRecordChain chain amount now s with ⟨r, s'⟩
      rcases checkAndRecordChain_cases hr with ⟨-, rfl | ⟨-, rfl⟩⟩ | ⟨x, -, -, hres⟩
      · exact ih
      · exact fun jti usage hs => ih jti usage (purgeExpired_some hs)
      · exact hres.fine ih

theorem purgeExpired_purgeExpired (s : State) (now : ℚ) :
    (s.purgeExpired now).purgeExpired now = s.purgeExpired now := by
  funext jti
  simp only [State.purgeExpired]
  cases s jti with
  | none => rfl
  | some usage => by_cases h : now < usage.expiresAt <;> simp

/-- A purge does not change what unexpired records hold. -/
theorem total_purgeExpired (jti : Units) : total (s.purgeExpired now) now jti = total s now jti := by
  rw [total, purgeExpired_purgeExpired, total]

/-- **A reservation adds to the records of its chain**, and to no other. -/
theorem Reserved.spent_eq (hres : Reserved chain x now s s') (jti : Units) :
    spent s' jti = if jti ∈ chain.map (·.jti) then
      (decimalSum ((s.purgeExpired now).get jti).spentAmount x).value else total s now jti := by
  split_ifs with hmem
  · obtain ⟨claims, hclaims, rfl⟩ := List.mem_map.mp hmem
    rw [spent, get_of_some (hres.charged claims hclaims), charge]
  · rw [spent, State.get, hres.same jti hmem, total, spent, State.get]

/-- On the record of a token with an amount limit, a reservation is exact. -/
theorem Reserved.exact (hs : Reachable s) (hres : Reserved chain x now s s') {claims : CapabilityClaims}
    (hmem : claims ∈ chain) (hlimit : claims.constraints.maxAmountUsd ≠ none) :
    (decimalSum ((s.purgeExpired now).get claims.jti).spentAmount x).value =
      total s now claims.jti + (amountDecimal x).value := by
  obtain ⟨d, hd⟩ := Option.ne_none_iff_exists'.mp hlimit
  have hamount : (allowance claims).amount = some (limitDecimal d).value := by
    rw [allowance, limitsOf, hd]
    rfl
  have hfine : -340 ≤ ((s.purgeExpired now).get claims.jti).spentAmount.exp :=
    fine_get (fun jti usage h => hs.fine jti usage (purgeExpired_some h)) claims.jti
  have hbelow : (decimalSum ((s.purgeExpired now).get claims.jti).spentAmount x).value < exactBelow :=
    ((hres.admits claims hmem).amount _ hamount).trans_lt (limitDecimal_lt d)
  have hsum : ((s.purgeExpired now).get claims.jti).spentAmount.value + (amountDecimal x).value <
      exactBelow := by
    by_contra h
    have hmin := min_le_value_decimalSum hfine x
    rw [min_eq_right (not_lt.mp h)] at hmin
    exact absurd hbelow (not_lt.mpr hmin)
  exact Decimal.value_add_of_lt hsum hfine (le_exp_amountDecimal x) (by norm_num)

end Totals

/-! ## Charged as supplied -/

/-- The number an amount stands for: the integer, or the float's shortest decimal. -/
def supplied : Scalar → Option ℚ
  | .int n => some n
  | .float (.finite neg mag) =>
      some (if neg then -(amountDecimal mag).value else (amountDecimal mag).value)
  | _ => none

/-- A float that is charged is charged as supplied. -/
theorem supplied_float {d : Double} {x : Binary64} (h : validatedAmount (.scalar (.float d)) = .ok x) :
    supplied (.float d) = some (amountDecimal x).value := by
  rw [validatedAmount] at h
  cases d with
  | finite neg mag =>
      rw [finiteNonNegative] at h
      split_ifs at h with hneg
      obtain rfl := Except.ok.inj h
      cases neg with
      | false => rfl
      | true =>
          -- only the negative zero is let through
          have hsig : mag.sig = 0 := by simpa using hneg
          rw [Binary64.eq_zero_of_sig hsig]
          decide +kernel
  | inf neg => exact absurd h error_ne_ok
  | nan => exact absurd h error_ne_ok

/-- The call returns, is reported as allowed and leaves the records that have not expired with
the supplied amount added to each of the reserved chain; or it refuses, is reported as denied and adds nothing. -/
def ChargedAsSupplied (ed : SignatureCheck) (c : Call) (s : State) (claims : CapabilityClaims)
    (amount : Scalar) : Prop :=
  let after := verifyAndCheck ed (some tracker) c s
  let decisions := (events c (tried ed (some tracker) c s)).map (·.decision)
  (after.1 = .ok claims ∧ decisions = ["allowed"] ∧ ∃ v, supplied amount = some v ∧
    ∀ jti, spent after.2 jti = total s c.reserveTime jti +
      if jti ∈ (reservedChain claims).map (·.jti) then v else 0) ∨
  (refusal? after.1 ≠ none ∧ decisions = ["denied"] ∧
    ∀ jti, total after.2 c.reserveTime jti = total s c.reserveTime jti)

/-- The call passes every check that does not look at the value of its amount. -/
def PassesChecks (c : Call) (claims : CapabilityClaims) : Prop :=
  checkCall c.free false true claims = .ok .zero

/-- Every check passes, the limits of the reserved chain included. -/
def Accepts (c : Call) (s : State) (claims : CapabilityClaims) (amount : Scalar) (x : Binary64) : Prop :=
  PassesChecks c claims ∧ validatedAmount (.scalar amount) = .ok x ∧
    (checkAndRecordChain (reservedChain claims) (.scalar (.float (.finite false x)))
      c.reserveTime s).1 = .ok ()

/-- The refusal of a parameter can be written. Unless the call is refused, an integer amount
has a finite float whose shortest decimal is the integer, and no record's new total has more
than a thousand digits. -/
structure Convertible (c : Call) (s : State) (claims : CapabilityClaims) (amount : Scalar) : Prop where
  legible : LegibleCall c claims
  finite : PassesChecks c claims → ∀ n neg, amount = .int n → Double.ofInt n ≠ .inf neg
  same : ∀ x, Accepts c s claims amount x → ∀ n : ℤ, amount = .int n → (amountDecimal x).value = n
  fits : ∀ x, Accepts c s claims amount x → ∀ link ∈ reservedChain claims,
    (Decimal.exactSum ((s.purgeExpired c.reserveTime).get link.jti).spentAmount
      (amountDecimal x)).Fits 1000

section Calls
variable {ed : SignatureCheck} {c : Call} {s : State} {claims : CapabilityClaims} {amount : Scalar}
  {report : AuthorizationEvent → Outcome Unit}

/-- With a callback that returns, a call ends as its block left it. -/
theorem verifyAndCheck_reported (hc : c.onDecision = some report)
    (hreport : ∀ event, report event = .ok ()) :
    verifyAndCheck ed (some tracker) c s =
      ((tried ed (some tracker) c s).result, (tried ed (some tracker) c s).state) := by
  have hdecide : ∀ event (r : Outcome CapabilityClaims), decide? c event r = r := by
    intro event r
    rw [decide?, hc]
    simp only [hreport]
    rfl
  rw [verifyAndCheck_eq_finish, finish]
  cases event? c (tried ed (some tracker) c s) with
  | none => rfl
  | some event => exact congrArg (·, _) (hdecide event _)

/-- A call whose amount cannot be converted, or which a check refuses. -/
theorem charged_iff_of_refused {e : PyError} (hc : c.onDecision = some report)
    (hreport : ∀ event, report event = .ok ()) (hamount : c.amount = .scalar amount)
    (hgiven : amount ≠ .none)
    (hv : verify ed c.verifyOptions c.token c.verifyTime c.parentTime = .ok claims)
    (hcheck : checkCall c false true claims = .error e) :
    ChargedAsSupplied ed c s claims amount ↔ Convertible c s claims amount := by
  have hcall : c.onDecision ≠ none := by rw [hc]; exact Option.some_ne_none report
  have htried : tried ed (some tracker) c s = ⟨some claims, .error e, s⟩ :=
    tried_of_refused hv hcheck
  have hne : c.amount ≠ .none := by
    rw [hamount]
    exact fun h => hgiven (Json.Tree.scalar.inj h)
  have hsplit : checkCall c false true claims =
      checkCall c.free false true claims >>= fun _ => validatedAmount c.amount := checkCall_eq hne
  rw [hcheck, hamount] at hsplit
  have hconverted : ∀ x, ¬ Accepts c s claims amount x := by
    intro x h
    rw [show checkCall c.free false true claims = .ok .zero from h.1] at hsplit
    exact error_ne_ok (hsplit.trans h.2.1)
  rw [ChargedAsSupplied, verifyAndCheck_reported hc hreport, htried]
  by_cases he : refusal? (.error e : Outcome CapabilityClaims) = none
  · -- the conversion of the amount overflowed
    refine iff_of_false ?_ fun h => ?_
    · rintro (⟨hok, -⟩ | ⟨hrefused, -⟩)
      · exact error_ne_ok hok
      · exact hrefused he
    · have hpasses : PassesChecks c claims := by
        have hfree : OnlyRefuses (checkCall c.free false true claims) :=
          onlyRefuses_checkCall (c := c.free) h.legible (onlyRefuses_ok Binary64.zero)
        cases hfc : checkCall c.free false true claims with
        | error e' =>
            rw [hfc] at hsplit hfree
            obtain rfl : e = e' := Except.error.inj hsplit
            exact absurd ((refusal?_error e).trans he) (hfree e rfl)
        | ok x =>
            have hx := (checkCall_ok hfc).2.2.2
            exact hfc.trans hx.symm
      have honly := onlyRefuses_validatedAmount fun n neg (hn : amount = .int n) =>
        h.finite hpasses n neg hn
      rw [show checkCall c.free false true claims = .ok .zero from hpasses] at hsplit
      have hraised : validatedAmount (.scalar amount) = .error e := hsplit.symm
      exact honly e hraised (hraised ▸ (refusal?_error e).trans he)
  · obtain ⟨cls, hcls⟩ := Option.ne_none_iff_exists'.mp he
    have hevents := events_of_refusal hcall (t := (⟨some claims, .error e, s⟩ : Tried State)) hcls
    refine iff_of_true (Or.inr ⟨he, by rw [hevents]; rfl, fun _ => rfl⟩) ⟨?_, ?_, ?_, ?_⟩
    · apply legible_of_onlyRefuses (c := c.free)
      cases hfc : checkCall c.free false true claims with
      | ok x => exact onlyRefuses_ok x
      | error e' =>
          rw [hfc] at hsplit
          obtain rfl : e = e' := Except.error.inj hsplit
          exact fun _ _ => (refusal?_error e).trans_ne he
    · intro hpasses n neg hn hinf
      rw [show checkCall c.free false true claims = .ok .zero from hpasses, hn] at hsplit
      have hover : (.error e : Outcome Binary64) = .error .overflowError :=
        hsplit.trans (validatedAmount_overflow hinf)
      exact he ((Except.error.inj hover) ▸ rfl)
    · exact fun x h => absurd h (hconverted x)
    · exact fun x h => absurd h (hconverted x)

/-- A call whose checks pass ends with the tracker. -/
theorem charged_iff_of_checked {x : Binary64} (hs : Reachable s) (hc : c.onDecision = some report)
    (hreport : ∀ event, report event = .ok ()) (hamount : c.amount = .scalar amount)
    (hgiven : amount ≠ .none)
    (hv : verify ed c.verifyOptions c.token c.verifyTime c.parentTime = .ok claims)
    (hlimit : claims.constraints.maxAmountUsd ≠ none)
    (hcheck : checkCall c false true claims = .ok x) :
    ChargedAsSupplied ed c s claims amount ↔ Convertible c s claims amount := by
  have hcall : c.onDecision ≠ none := by rw [hc]; exact Option.some_ne_none report
  have hne : c.amount ≠ .none := by
    rw [hamount]
    exact fun h => hgiven (Json.Tree.scalar.inj h)
  have hsplit : checkCall c false true claims =
      checkCall c.free false true claims >>= fun _ => validatedAmount c.amount := checkCall_eq hne
  rw [hcheck, hamount] at hsplit
  obtain ⟨y, hfree, hx⟩ := bind_eq_ok.mp hsplit.symm
  have hpasses : PassesChecks c claims := hfree.trans (checkCall_ok hfree).2.2.2.symm
  obtain ⟨parent, hp⟩ : ∃ parent, parentOf claims = .ok parent := by
    rcases parentOf_of_verify hv with ⟨-, h⟩ | ⟨_, p, -, -, h⟩
    · exact ⟨none, h⟩
    · exact ⟨some p, h⟩
  have htried : tried ed (some tracker) c s = afterReservation claims (checkAndRecordChain
      (reservedChain claims) (.scalar (.float (.finite false x))) c.reserveTime s) := by
    have hend : tried ed (some tracker) c s = afterReservation claims
        (reserved (some tracker) claims (.scalar (.float (.finite false x))) c.reserveTime s) :=
      tried_of_checked hv hcheck
    rw [hend, reserved, reserve_eq hp]
  have honly := onlyRefuses_checkAndRecordChain (reservedChain claims) x c.reserveTime s
  rw [ChargedAsSupplied, verifyAndCheck_reported hc hreport, htried]
  have hfinite : ∀ n neg, amount = .int n → Double.ofInt n ≠ .inf neg := by
    intro n neg hn hinf
    rw [hn, validatedAmount_overflow hinf] at hx
    exact error_ne_ok hx
  have hlegible : LegibleCall c claims := by
    apply legible_of_onlyRefuses (c := c.free)
    rw [show checkCall c.free false true claims = .ok .zero from hpasses]
    exact onlyRefuses_ok _
  have hunique : ∀ x', Accepts c s claims amount x' → x' = x := fun x' h =>
    Except.ok.inj (h.2.1.symm.trans hx)
  rcases hres : checkAndRecordChain (reservedChain claims) (.scalar (.float (.finite false x)))
    c.reserveTime s with ⟨e | u, s'⟩
  · -- refused by the tracker, which has at most purged
    rw [hres] at honly
    have he := honly e rfl
    obtain ⟨cls, hcls⟩ := Option.ne_none_iff_exists'.mp ((refusal?_error e).trans_ne he)
    have hevents := events_of_refusal hcall
      (t := (⟨some claims, .error e, s'⟩ : Tried State)) hcls
    have hsame : ∀ jti, total s' c.reserveTime jti = total s c.reserveTime jti := by
      intro jti
      rcases checkAndRecordChain_cases hres with ⟨-, rfl | ⟨-, rfl⟩⟩ | ⟨_, hok, -⟩
      · rfl
      · exact total_purgeExpired jti
      · exact absurd hok error_ne_ok
    have hnot : ∀ x', ¬ Accepts c s claims amount x' := by
      intro x' h
      have hok := h.2.2
      rw [hunique x' h, hres] at hok
      exact error_ne_ok hok
    refine iff_of_true (Or.inr ⟨?_, ?_, hsame⟩) ⟨hlegible, fun _ => hfinite, ?_, ?_⟩
    · exact (refusal?_error e).trans_ne he
    · show (events c (⟨some claims, .error e, s'⟩ : Tried State)).map _ = _
      rw [hevents]
      rfl
    · exact fun x' h => absurd h (hnot x')
    · exact fun x' h => absurd h (hnot x')
  · rcases checkAndRecordChain_cases hres with ⟨hne', -⟩ | ⟨x', -, hx', hreserved⟩
    · exact absurd rfl hne'
    obtain rfl : x = x' := Except.ok.inj ((validatedAmount_float x).symm.trans hx')
    have haccepts : Accepts c s claims amount x := ⟨hpasses, hx, by rw [hres]⟩
    have hevents := events_of_ok hcall (t := (⟨some claims, .ok claims, s'⟩ : Tried State)) rfl
    have hown := hreserved.exact hs (mem_reservedChain claims) hlimit
    have hmem : claims.jti ∈ (reservedChain claims).map (·.jti) :=
      List.mem_map_of_mem (mem_reservedChain claims)
    constructor
    · rintro (⟨-, -, v, hv', htotal⟩ | ⟨hrefused, -⟩)
      · -- its own record tells what was charged
        have hclaims := htotal claims.jti
        rw [if_pos hmem] at hclaims
        have hcharged := hreserved.spent_eq claims.jti
        rw [if_pos hmem, hown] at hcharged
        have hvalue : v = (amountDecimal x).value :=
          add_left_cancel (hclaims.symm.trans hcharged)
        refine ⟨hlegible, fun _ => hfinite, fun x' h n hn => ?_, fun x' h link hlink => ?_⟩
        · rw [hunique x' h, ← hvalue]
          rw [hn] at hv'
          exact (Option.some.inj hv').symm
        · have hjti : link.jti ∈ (reservedChain claims).map (·.jti) := List.mem_map_of_mem hlink
          have hlinkTotal := htotal link.jti
          have hsum := hreserved.spent_eq link.jti
          rw [if_pos hjti, hvalue] at hlinkTotal
          rw [if_pos hjti] at hsum
          rw [hunique x' h]
          exact (Decimal.value_add_eq_iff (by norm_num)).mp (hsum.symm.trans hlinkTotal)
      · exact absurd rfl hrefused
    · intro h
      refine Or.inl ⟨rfl, ?_, (amountDecimal x).value, ?_, fun jti => ?_⟩
      · show (events c (⟨some claims, .ok claims, s'⟩ : Tried State)).map _ = _
        rw [hevents]
        rfl
      · cases amount with
        | none => exact absurd rfl hgiven
        | bool b => exact absurd hx error_ne_ok
        | int n => exact congrArg some (h.same x haccepts n rfl).symm
        | float d => exact supplied_float hx
      · show spent s' jti = _
        rw [hreserved.spent_eq]
        split_ifs with hjti
        · obtain ⟨link, hlink, rfl⟩ := List.mem_map.mp hjti
          exact (Decimal.value_add_eq_iff (by norm_num)).mpr (h.fits x haccepts link hlink)
        · rw [add_zero]

end Calls

/-- The sample root claims, with a budget of ten dollars. -/
def sampleBudgeted : CapabilityClaims :=
  ⟨{ sampleClaims.toClaimFields with
      constraints := ⟨{ maxAmountUsd := some (.ofInt 10) }, by decide +kernel, by decide⟩ },
    by decide⟩

/-- A reported call that charges an integer. -/
def sampleCharge (n : ℤ) : Call :=
  { sampleCall sampleBudgeted 1005 with
    amount := .scalar (.int n), onDecision := some fun _ => .ok () }

set_option maxRecDepth 100000 in
theorem verify_sampleCharge (n : ℤ) : verify sampleCheck (sampleCharge n).verifyOptions
    (sampleCharge n).token (sampleCharge n).verifyTime (sampleCharge n).parentTime =
      .ok sampleBudgeted := by
  show verify sampleCheck (sampleCall sampleBudgeted 1005).verifyOptions
    (sampleCall sampleBudgeted 1005).token 1005 1005 = .ok sampleBudgeted
  decide +kernel

/-- The float of three. -/
def sampleThree : Binary64 :=
  ⟨3 * 2 ^ 51, -51, by norm_num, Binary64.exp_two_ge, Binary64.exp_two_le, Or.inl (by norm_num)⟩

end UsageTracker
end SwarmAuth.Python
