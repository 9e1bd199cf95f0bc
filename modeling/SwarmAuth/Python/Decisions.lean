import SwarmAuth.Python.Asyncio

/-!
# Decision events

Both enforcement paths run their checks in one `try` block and report afterwards, with the
claims the block had assigned by then. The synchronous path assigns them once the token
verifies; the awaited path once `verify_and_check` has returned against the stand-in, so
they are missing from the report of every check that call makes.

## Main definitions

* `Tried`, `tried`, `asyncTried` — what the `try` block leaves, on either path.
* `event?`, `events` — the events a call delivers.
* `verifyAndCheck_eq_finish`, `asyncVerifyAndCheck_eq_finish` — the paths report those.
* `denials_agree_iff` — when both paths report a refusal alike.
-/
namespace SwarmAuth.Python.Asyncio

variable {σ : Type}

/-! ## What is reported -/

/-- What the `try` block leaves: the value of `claims`, its result, and the tracker. -/
structure Tried (σ : Type) where
  known : Option CapabilityClaims
  result : Outcome CapabilityClaims
  state : σ

/-- The class of the `SwarmAuthError` that was raised, if one was. -/
def refusal? {α : Type} : Outcome α → Option ErrorClass
  | .error (.swarmAuth cls _ _ _ _) => some cls
  | _ => none

theorem refusal?_error {α β : Type} (e : PyError) :
    refusal? (.error e : Outcome α) = refusal? (.error e : Outcome β) := by
  cases e <;> rfl

/-- The event of a call, unless another exception ends it. -/
def event? (c : Call) (t : Tried σ) : Option AuthorizationEvent :=
  match t.result with
  | .ok claims => some ⟨"allowed", none, some claims.iss, some claims.sub, c.requiredCapability,
      some claims.jti⟩
  | .error e => (refusal? (.error e : Outcome Unit)).map fun cls => ⟨"denied", some cls.code,
      t.known.map (·.iss), c.audience, c.requiredCapability, t.known.map (·.jti)⟩

/-- The events that are delivered. -/
def events (c : Call) (t : Tried σ) : List AuthorizationEvent :=
  if c.onDecision.isSome then (event? c t).toList else []

/-- The event, if any, is delivered, and then the call ends. -/
def finish (c : Call) (t : Tried σ) : Outcome CapabilityClaims × σ :=
  match event? c t with
  | some event => (decide? c event t.result, t.state)
  | none => (t.result, t.state)

/-- The `try` block of `verify_and_check`. -/
def tried (ed : SignatureCheck) (tracker : Option (Tracker σ)) (c : Call) (s : σ) : Tried σ :=
  match verify ed c.verifyOptions c.token c.verifyTime c.parentTime with
  | .error e => ⟨none, .error e, s⟩
  | .ok claims =>
      match enforce tracker c claims s with
      | (.error e, s') => ⟨some claims, .error e, s'⟩
      | (.ok (), s') => ⟨some claims, .ok claims, s'⟩

/-- The `try` block of `async_verify_and_check`. -/
def asyncTried (ed : SignatureCheck) (tracker : Option (Tracker σ)) (c : Call) (s : σ) : Tried σ :=
  match verifyAndCheck ed (tracker.map standIn) (innerCall c) {} with
  | (.error e, _) => ⟨none, .error e, s⟩
  | (.ok claims, r) =>
      match checkRevoked c claims with
      | .error e => ⟨some claims, .error e, s⟩
      | .ok () =>
          match reserve? tracker claims r c.reserveTime s with
          | (.error e, s') => ⟨some claims, .error e, s'⟩
          | (.ok (), s') => ⟨some claims, .ok claims, s'⟩

theorem finish_error (c : Call) (known : Option CapabilityClaims) (e : PyError) (s : σ) :
    finish c ⟨known, .error e, s⟩ = (denied c known e, s) := by
  cases e <;> rfl

/-- **`verify_and_check` reports what its block leaves.** -/
theorem verifyAndCheck_eq_finish (ed : SignatureCheck) (tracker : Option (Tracker σ)) (c : Call)
    (s : σ) : verifyAndCheck ed tracker c s = finish c (tried ed tracker c s) := by
  rw [verifyAndCheck, tried]
  cases verify ed c.verifyOptions c.token c.verifyTime c.parentTime with
  | error e => exact (finish_error c none e s).symm
  | ok claims =>
      simp only
      rcases enforce tracker c claims s with ⟨e | u, s'⟩
      · exact (finish_error c (some claims) e s').symm
      · rfl

/-- **`async_verify_and_check` reports what its block leaves.** -/
theorem asyncVerifyAndCheck_eq_finish (ed : SignatureCheck) (tracker : Option (Tracker σ)) (c : Call)
    (s : σ) : asyncVerifyAndCheck ed tracker c s = finish c (asyncTried ed tracker c s) := by
  rw [asyncVerifyAndCheck, asyncTried]
  rcases verifyAndCheck ed (tracker.map standIn) (innerCall c) {} with ⟨e | claims, r⟩
  · exact (finish_error c none e s).symm
  · simp only
    cases checkRevoked c claims with
    | error e => exact (finish_error c (some claims) e s).symm
    | ok u =>
        simp only
        rcases reserve? tracker claims r c.reserveTime s with ⟨e | u, s'⟩
        · exact (finish_error c (some claims) e s').symm
        · rfl

/-- A call that ends in a `SwarmAuthError` was refused by its block, or was allowed and its
callback raised. -/
theorem refusal_of_finish {c : Call} {t : Tried σ} {cls : ErrorClass}
    (h : refusal? (finish c t).1 = some cls) :
    (∃ claims, t.result = .ok claims) ∨ ∃ cls', refusal? t.result = some cls' := by
  obtain ⟨known, e | claims, s⟩ := t
  · right
    cases e with
    | swarmAuth cls' message constraint required granted => exact ⟨cls', rfl⟩
    | valueError message => exact absurd h nofun
    | overflowError => exact absurd h nofun
  · exact Or.inl ⟨claims, rfl⟩

/-! ## Where the blocks differ -/

section Paths
variable {ed : SignatureCheck} {tracker : Option (Tracker σ)} {c : Call} {s : σ}
  {claims : CapabilityClaims}

/-- The end of a block whose reservation was tried. -/
def afterReservation (claims : CapabilityClaims) (reserved : Outcome Unit × σ) : Tried σ :=
  match reserved with
  | (.error e, s') => ⟨some claims, .error e, s'⟩
  | (.ok (), s') => ⟨some claims, .ok claims, s'⟩

theorem tried_of_checked {amount : Binary64}
    (hv : verify ed c.verifyOptions c.token c.verifyTime c.parentTime = .ok claims)
    (hc : checkCall c (tracker.any Tracker.supportsSharedBudgets) tracker.isSome claims = .ok amount) :
    tried ed tracker c s = afterReservation claims
      (reserved tracker claims (.scalar (.float (.finite false amount))) c.reserveTime s) := by
  rw [tried, hv]
  simp only [enforce, hc]
  cases tracker with
  | none => rfl
  | some t => rfl

theorem tried_of_refused {e : PyError}
    (hv : verify ed c.verifyOptions c.token c.verifyTime c.parentTime = .ok claims)
    (hc : checkCall c (tracker.any Tracker.supportsSharedBudgets) tracker.isSome claims = .error e) :
    tried ed tracker c s = ⟨some claims, .error e, s⟩ := by
  rw [tried, hv]
  simp only [enforce, hc]

/-- A check that refuses leaves the awaited path without the claims. -/
theorem asyncTried_of_refused {e : PyError}
    (hv : verify ed c.verifyOptions c.token c.verifyTime c.parentTime = .ok claims)
    (hc : checkCall c (tracker.any Tracker.supportsSharedBudgets) tracker.isSome claims = .error e) :
    asyncTried ed tracker c s = ⟨none, .error e, s⟩ := by
  have hinner : verify ed (innerCall c).verifyOptions (innerCall c).token (innerCall c).verifyTime
      (innerCall c).parentTime = .ok claims := (verify_unrevoked.mp hv).1
  have hcheck : checkCall (innerCall c) ((tracker.map standIn).any Tracker.supportsSharedBudgets)
      (tracker.map standIn).isSome claims = .error e := by
    rw [supports_standIn, Option.isSome_map]
    exact hc
  have hstand : verifyAndCheck ed (tracker.map standIn) (innerCall c) {} = (.error e, {}) := by
    rw [verifyAndCheck, hinner]
    simp only [enforce, hcheck]
    cases e <;> rfl
  rw [asyncTried, hstand]

/-- The tracker is asked through the stand-in and directly with refusals of the same class. -/
theorem refusal_captured {parent : Option CapabilityClaims} (hp : parentOf claims = .ok parent)
    {t : Tracker σ} {amount : Value} {now : ℚ} {r : Reservation}
    (hr : (standIn t).reserve claims amount now {} = (.ok (), r)) (s : σ) :
    refusal? (reserve t claims r now s).1 = refusal? (t.reserve claims amount now s).1 ∧
      ((reserve t claims r now s).1 = .ok () ↔ (t.reserve claims amount now s).1 = .ok ()) := by
  cases parent with
  | none =>
      simp only [Tracker.reserve, hp, standIn, Prod.mk.injEq, true_and] at hr
      subst hr
      simp [Tracker.reserve, hp, reserve]
  | some parent =>
      by_cases hchain : stateful parent ≠ [] ∨ t.requiresChain = true
      · simp only [Tracker.reserve, hp, standIn] at hr
        obtain rfl := (Prod.mk.inj (hr.symm.trans (if_pos hchain))).2
        cases hm : t.checkAndRecordChain <;>
          simp [Tracker.reserve, hp, reserve, if_pos hchain, hm, refusal?, constraintViolation]
      · simp only [Tracker.reserve, hp, standIn] at hr
        obtain rfl := (Prod.mk.inj (hr.symm.trans (if_neg hchain))).2
        simp [Tracker.reserve, hp, reserve, if_neg hchain]

/-- Past the checks, both paths end with the tracker. -/
theorem asyncTried_of_checked {amount : Binary64}
    (hv : verify ed c.verifyOptions c.token c.verifyTime c.parentTime = .ok claims)
    (hc : checkCall c (tracker.any Tracker.supportsSharedBudgets) tracker.isSome claims = .ok amount) :
    ∃ b, asyncTried ed tracker c s = afterReservation claims b ∧
      let a := reserved tracker claims (.scalar (.float (.finite false amount))) c.reserveTime s
      refusal? b.1 = refusal? a.1 ∧ (b.1 = .ok () ↔ a.1 = .ok ()) := by
  obtain ⟨hinner, hlinks⟩ := verify_unrevoked.mp hv
  obtain ⟨parent, hp⟩ : ∃ parent, parentOf claims = .ok parent := by
    rcases parentOf_of_verify hv with ⟨-, h⟩ | ⟨_, p, -, -, h⟩
    · exact ⟨none, h⟩
    · exact ⟨some p, h⟩
  have hrevoked : checkRevoked c claims = .ok () := (checkRevoked_ok hp).mpr (hlinks parent hp)
  rcases verifyAndCheck_eq ed (tracker.map standIn) (innerCall c) {} with
    ⟨-, hrefused⟩ | ⟨claims', amount', hv', hc', hstand⟩
  · refine absurd ?_ (hrefused claims amount hinner)
    rw [supports_standIn, Option.isSome_map]
    exact hc
  rw [supports_standIn, Option.isSome_map] at hc'
  obtain rfl := Except.ok.inj (hinner.symm.trans hv')
  obtain rfl := Except.ok.inj (hc.symm.trans hc')
  cases tracker with
  | none =>
      refine ⟨(.ok (), s), ?_, rfl, Iff.rfl⟩
      rw [asyncTried, hstand]
      simp only [Option.map_none, reserved, conclude, decide?, innerCall, hrevoked, reserve?]
      rfl
  | some t =>
      obtain ⟨r, hr, -⟩ := reserve_captured hp t (.scalar (.float (.finite false amount)))
        c.reserveTime s
      refine ⟨reserve t claims r c.reserveTime s, ?_, refusal_captured hp hr s⟩
      have hreserved : reserved ((some t).map standIn) claims (.scalar (.float (.finite false amount)))
          (innerCall c).reserveTime {} = (.ok (), r) := hr
      rw [asyncTried, hstand, hreserved]
      simp only [conclude, decide?, innerCall, hrevoked, reserve?]
      rcases reserve t claims r c.reserveTime s with ⟨e | u, s'⟩ <;> rfl

end Paths

/-! ## Refusals -/

section Events
variable {c : Call} {t : Tried σ}

/-- A call without a callback ends with what its block left. -/
theorem finish_quiet (h : c.onDecision = none) : finish c t = (t.result, t.state) := by
  obtain ⟨known, e | claims, s⟩ := t
  · cases e <;> simp [finish, event?, refusal?, decide?, h]
  · simp [finish, event?, decide?, h]

theorem events_of_refusal {cls : ErrorClass} (hc : c.onDecision ≠ none)
    (h : refusal? t.result = some cls) : events c t = [⟨"denied", some cls.code,
      t.known.map (·.iss), c.audience, c.requiredCapability, t.known.map (·.jti)⟩] := by
  obtain ⟨known, e | claims, s⟩ := t
  · have he : refusal? (.error e : Outcome Unit) = some cls := (refusal?_error e).trans h
    rw [events, if_pos (Option.isSome_iff_ne_none.mpr hc), event?]
    simp only [he]
    rfl
  · exact absurd h nofun

theorem events_of_ok {claims : CapabilityClaims} (hc : c.onDecision ≠ none)
    (h : t.result = .ok claims) : events c t = [⟨"allowed", none, some claims.iss,
      some claims.sub, c.requiredCapability, some claims.jti⟩] := by
  rw [events, if_pos (Option.isSome_iff_ne_none.mpr hc), event?, h]
  rfl

end Events

/-- The blocks return the same claims or both fail. -/
theorem tried_agree (ed : SignatureCheck) (tracker : Option (Tracker σ)) (c : Call) (s : σ)
    (claims : CapabilityClaims) :
    (asyncTried ed tracker c s).result = .ok claims ↔ (tried ed tracker c s).result = .ok claims := by
  have h := (async_agrees ed tracker { c with onDecision := none } s).returns claims
  rw [asyncVerifyAndCheck_eq_finish, verifyAndCheck_eq_finish, finish_quiet rfl, finish_quiet rfl] at h
  exact h

/-- Each path delivers one event, a denial; of a token that verifies it is the same one,
with the verified issuer and token id. -/
structure ReportedAlike (ed : SignatureCheck) (tracker : Option (Tracker σ)) (c : Call) (s : σ) :
    Prop where
  sync : ∃ event, events c (tried ed tracker c s) = [event] ∧ event.decision = "denied"
  awaited : ∃ event, events c (asyncTried ed tracker c s) = [event] ∧ event.decision = "denied"
  same : ∀ claims, verify ed c.verifyOptions c.token c.verifyTime c.parentTime = .ok claims →
    events c (tried ed tracker c s) = events c (asyncTried ed tracker c s) ∧
      ∀ event ∈ events c (tried ed tracker c s),
        event.issuer = some claims.iss ∧ event.tokenId = some claims.jti

/-- A token that verifies passes the checks on the call, and the tracker refuses it. -/
def TrackerRefuses (ed : SignatureCheck) (tracker : Option (Tracker σ)) (c : Call) (s : σ) : Prop :=
  ∀ claims, verify ed c.verifyOptions c.token c.verifyTime c.parentTime = .ok claims →
    ∃ amount, checkCall c (tracker.any Tracker.supportsSharedBudgets) tracker.isSome claims =
        .ok amount ∧
      (reserved tracker claims (.scalar (.float (.finite false amount))) c.reserveTime s).1 ≠ .ok ()

section Reported
variable {ed : SignatureCheck} {tracker : Option (Tracker σ)} {c : Call} {s : σ}
  {claims : CapabilityClaims} {cls cls' : ErrorClass}

/-- A token that does not verify is denied once by each path. -/
theorem reportedAlike_of_unverified {e : PyError} (hc : c.onDecision ≠ none)
    (hv : verify ed c.verifyOptions c.token c.verifyTime c.parentTime = .error e)
    (hsync : refusal? (verifyAndCheck ed tracker c s).1 = some cls)
    (hasync : refusal? (asyncVerifyAndCheck ed tracker c s).1 = some cls') :
    ReportedAlike ed tracker c s := by
  have htried : tried ed tracker c s = ⟨none, .error e, s⟩ := by rw [tried, hv]
  have hfails : ∀ claims, (tried ed tracker c s).result ≠ .ok claims := by
    rw [htried]
    exact fun _ => error_ne_ok
  rw [verifyAndCheck_eq_finish] at hsync
  rw [asyncVerifyAndCheck_eq_finish] at hasync
  refine ⟨?_, ?_, fun claims h => absurd (hv.symm.trans h) error_ne_ok⟩
  · rcases refusal_of_finish hsync with ⟨claims, hok⟩ | ⟨cls', hcls⟩
    · exact absurd hok (hfails claims)
    · exact ⟨_, events_of_refusal hc hcls, rfl⟩
  · rcases refusal_of_finish hasync with ⟨claims, hok⟩ | ⟨cls', hcls⟩
    · exact absurd ((tried_agree ed tracker c s claims).mp hok) (hfails claims)
    · exact ⟨_, events_of_refusal hc hcls, rfl⟩

/-- A check that refuses is reported without the claims by the awaited path. -/
theorem not_reportedAlike_of_refused {e : PyError} (hc : c.onDecision ≠ none)
    (hv : verify ed c.verifyOptions c.token c.verifyTime c.parentTime = .ok claims)
    (hcheck : checkCall c (tracker.any Tracker.supportsSharedBudgets) tracker.isSome claims = .error e)
    (hsync : refusal? (verifyAndCheck ed tracker c s).1 = some cls) :
    ¬ ReportedAlike ed tracker c s := by
  intro h
  have htried := tried_of_refused (s := s) hv hcheck
  have hasync := asyncTried_of_refused (s := s) hv hcheck
  rw [verifyAndCheck_eq_finish, htried] at hsync
  rcases refusal_of_finish hsync with ⟨claims', hok⟩ | ⟨cls', hcls⟩
  · exact absurd hok error_ne_ok
  · have hsame := (h.same claims hv).1
    rw [htried, hasync, events_of_refusal hc (t := ⟨some claims, .error e, s⟩) hcls,
      events_of_refusal hc (t := ⟨none, .error e, s⟩) hcls] at hsame
    simp at hsame

/-- Past the checks, the paths report alike exactly when the tracker refuses. -/
theorem reportedAlike_of_checked {amount : Binary64} (hc : c.onDecision ≠ none)
    (hv : verify ed c.verifyOptions c.token c.verifyTime c.parentTime = .ok claims)
    (hcheck : checkCall c (tracker.any Tracker.supportsSharedBudgets) tracker.isSome claims = .ok amount)
    (hsync : refusal? (verifyAndCheck ed tracker c s).1 = some cls) :
    ReportedAlike ed tracker c s ↔
      (reserved tracker claims (.scalar (.float (.finite false amount))) c.reserveTime s).1 ≠ .ok () := by
  have htried := tried_of_checked (s := s) hv hcheck
  obtain ⟨b, hasync, hclass, hok⟩ := asyncTried_of_checked (s := s) hv hcheck
  rw [verifyAndCheck_eq_finish, htried] at hsync
  obtain ⟨b, s₂⟩ := b
  rcases ha : reserved tracker claims (.scalar (.float (.finite false amount))) c.reserveTime s with
    ⟨e | u, s₁⟩
  · rw [ha] at htried hclass hok hsync
    refine iff_of_true ?_ error_ne_ok
    rcases refusal_of_finish hsync with ⟨claims', hok'⟩ | ⟨cls', hcls⟩
    · exact absurd hok' error_ne_ok
    cases b with
    | ok u => exact absurd (hok.mp rfl) error_ne_ok
    | error e' =>
        -- refusals of one class, with the claims known to both
        have hcls₁ : refusal? (tried ed tracker c s).result = some cls' := by
          rw [htried]
          exact hcls
        have hcls₂ : refusal? (asyncTried ed tracker c s).result = some cls' := by
          rw [hasync]
          exact (refusal?_error e').trans (hclass.trans ((refusal?_error e).trans hcls))
        have hev₁ := events_of_refusal hc hcls₁
        have hev₂ := events_of_refusal hc hcls₂
        have hknown₁ : (tried ed tracker c s).known = some claims := by rw [htried]; rfl
        have hknown₂ : (asyncTried ed tracker c s).known = some claims := by rw [hasync]; rfl
        rw [hknown₁] at hev₁
        rw [hknown₂] at hev₂
        refine ⟨⟨_, hev₁, rfl⟩, ⟨_, hev₂, rfl⟩, fun claims' hv' => ?_⟩
        obtain rfl := Except.ok.inj (hv.symm.trans hv')
        refine ⟨hev₁.trans hev₂.symm, fun event hmem => ?_⟩
        rw [hev₁, List.mem_singleton] at hmem
        rw [hmem]
        exact ⟨rfl, rfl⟩
  · rw [ha] at htried
    refine iff_of_false (fun h => ?_) fun hne => hne rfl
    obtain ⟨event, hev, hdenied⟩ := h.sync
    rw [htried, events_of_ok hc (t := afterReservation claims (.ok u, s₁)) rfl, List.cons.injEq] at hev
    rw [← hev.1] at hdenied
    exact absurd hdenied (by simp)

end Reported

/-- A call that asks for a capability the sample root token does not grant. -/
def sampleUngranted : Call :=
  { sampleCall sampleClaims 1005 with
    requiredCapability := some (lit "files:read"), onDecision := some fun _ => .ok () }

/-- The second call with a token for one call. -/
def sampleSecond : Call :=
  { sampleCall sampleOnce 1005 with onDecision := some fun _ => .ok () }

/-- A tracker whose allowance is used up. -/
def sampleExhausted : Tracker Unit where
  checkAndRecord _ _ _ _ :=
    (.error (constraintViolation [.text "Token call allowance exhausted"] "max_calls"), ())
  checkAndRecordChain := none

end SwarmAuth.Python.Asyncio
