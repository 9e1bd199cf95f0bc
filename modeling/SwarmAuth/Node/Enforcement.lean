import SwarmAuth.Node.Token
import SwarmAuth.Lib.Allowance

/-!
# The execution boundary in Node

`verifyAndCheck` of `index.js` and `asyncVerifyAndCheck` of `async.js`. The asynchronous one
runs the checks of the other against a tracker that only captures the reservation, looks the
links up in the revocation store, and then reserves. Trackers and decision callbacks may
answer with a promise: the synchronous boundary refuses one, the asynchronous one awaits it.
A revocation store is the answers it gives at once.

## Main definitions

* `Reply`, `Tracker`, `CheckOptions`, `Call` — a call at the boundary.
* `admission`, `verifyAndCheck` — the checks, and the call.
* `asyncVerifyAndCheck` — the call in phases.
* `verify_iff_unrevoked` — **revocation, apart from the other checks**.
* `asyncVerifyAndCheck_agrees` — **both reserve the same, and accept the same calls but for
  promises**.
-/
namespace SwarmAuth.Node

open Js

/-! ## Calls -/

/-- What a method or a callback answers with; a promise is what it settles to. -/
inductive Reply where
  | returns
  | throws (e : Thrown)
  | promise (settled : Outcome Unit)

/-- What a synchronous method did. -/
def Reply.of : Outcome Unit → Reply
  | .ok _ => .returns
  | .error e => .throws e

/-- `synchronous(…)`. -/
def Reply.synchronous : Reply → Outcome Unit
  | .returns => .ok ()
  | .throws e => .error e
  | .promise _ =>
      .error (.typeError "SwarmAuth requires synchronous tracker and decision callbacks")

/-- `await …`. -/
def Reply.awaited : Reply → Outcome Unit
  | .returns => .ok ()
  | .throws e => .error e
  | .promise settled => settled

/-- A tracker of states `σ`: what it declares, and its reservations at a clock read, with the
state once they are done. -/
structure Tracker (σ : Type) where
  requiresChain : Bool := false
  supportsSharedBudgets : Bool := false
  checkAndRecord : Claims → Double → ℚ → σ → Reply × σ
  checkAndRecordChain : Option (List Claims → Double → ℚ → σ → Reply × σ)

/-- The options of `verifyAndCheck`, without the tracker. -/
structure CheckOptions extends VerifyOptions where
  requiredCapability : Option Units := none
  params : Option Object := none
  amount : Value := .undefined

/-- A call: its arguments, and the clock reads at which the token, its parent and the
reservation are judged. -/
structure Call where
  token : Units
  options : CheckOptions
  clock : ℚ
  parentClock : ℚ
  reserveClock : ℚ

/-- `fail("CONSTRAINT_VIOLATION", message)`. -/
def violation (message : String) : Thrown := .swarmAuth "CONSTRAINT_VIOLATION" message

/-- `stateful(claims).length`. -/
def Constraints.stateful (c : Constraints) : Bool := c.limits.any fun l => l.2.isSome

/-- `validatedAmount`. -/
def validatedAmount : Value → Outcome Double
  | .scalar (.number d) => do
      raiseIf (!isFinite d || lessThan d (.ofInt 0))
        (violation "Amount must be a finite, non-negative number")
      return d
  | _ => .error (violation "Amount must be a finite, non-negative number")

/-- The checks on the pinned parameters. -/
def checkPins (allowed : Object) (params : Option Object) : Outcome Unit := do
  raiseIf (allowed ≠ [] ∧ params = none)
    (violation "Token pins parameters but params are missing")
  forM allowed fun m => raiseIf (!keepsPin (params.getD []) m.1 m.2)
    (violation "Parameter does not match required value")

section Boundary
variable {σ : Type} (ed : SignatureCheck) (tracker : Option (Tracker σ))

/-- The checks on verified claims; what is charged. -/
def checkCall (o : CheckOptions) (claims : Claims) : Outcome Double := do
  raiseIf (truthy o.requiredCapability ∧
      !capabilityCovered (o.requiredCapability.getD []) claims.capabilities)
    (.swarmAuth "CAPABILITY_VIOLATION" "Token does not grant capability")
  checkPins claims.constraints.allowedParams o.params
  raiseIf (claims.constraints.stateful ∧ tracker.isNone)
    (violation "Token limits require a usage tracker")
  raiseIf (claims.constraints.sharedBudget ≠ none ∧ !tracker.any Tracker.supportsSharedBudgets)
    (violation "Shared budget requires a budget-aware tracker")
  raiseIf (claims.constraints.maxAmountUsd.isSome ∧ o.amount.isNullish)
    (violation "A budgeted call requires an explicit amount or amountArg")
  if o.amount.isNullish then return .ofInt 0 else validatedAmount o.amount

/-- The links of verified claims: the parent, if any, and the claims. -/
def linksOf (claims : Claims) : Outcome (List Claims) :=
  if truthy claims.prf then do
    let parent ← parse (claims.prf.getD [])
    return [parent.claims, claims]
  else return [claims]

/-- The links that a tracker charges. -/
def chainFor (t : Tracker σ) (claims : Claims) : Outcome (List Claims) :=
  if truthy claims.prf then do
    let parent ← parse (claims.prf.getD [])
    return if parent.claims.constraints.stateful || t.requiresChain then [parent.claims, claims]
      else [claims]
  else return [claims]

/-- An admitted call: its claims, and what it reserves. -/
structure Admitted where
  claims : Claims
  chain : List Claims
  amount : Double
  deriving DecidableEq

/-- `verifyAndCheck` up to the reservation, under options for `verify`. -/
def admission (o : VerifyOptions) (c : Call) : Outcome Admitted := do
  let claims ← verify ed o c.token c.clock c.parentClock
  let amount ← checkCall tracker c.options claims
  match tracker with
  | none => return ⟨claims, [], amount⟩
  | some t =>
      let chain ← chainFor t claims
      return ⟨claims, chain, amount⟩

/-- A tracker's reply to an admitted call; none if it has no method for chains. -/
def Tracker.reply {σ : Type} (t : Tracker σ) (a : Admitted) (now : ℚ) (s : σ) : Option (Reply × σ) :=
  match a.chain with
  | [claims] => some (t.checkAndRecord claims a.amount now s)
  | chain => t.checkAndRecordChain.map fun record => record chain a.amount now s

/-- The reservation of an admitted call: `take` is what is made of the reply, `lacking` what is
said of a tracker that has no method for chains. -/
def reserve (take : Reply → Outcome Unit) (lacking : String) (a : Admitted) (now : ℚ) (s : σ) :
    Outcome Claims × σ :=
  match tracker with
  | none => (.ok a.claims, s)
  | some t =>
      match t.reply a now s with
      | none => (.error (violation lacking), s)
      | some (r, s') => ((take r).map fun _ => a.claims, s')

/-- The reservation in `verifyAndCheck`. -/
def reserveNow : Admitted → ℚ → σ → Outcome Claims × σ :=
  reserve tracker Reply.synchronous "Delegated limits require atomic checkAndRecordChain"

/-- The reservation in `asyncVerifyAndCheck`. -/
def reserveAwaited : Admitted → ℚ → σ → Outcome Claims × σ :=
  reserve tracker Reply.awaited "Delegated limits require atomic chain accounting"

/-! ### Decisions -/

/-- What `onDecision` is told. -/
structure Decision where
  allowed : Bool
  code : Option String := none
  issuer : Option Units
  audience : Option Units
  capability : Option Units
  tokenId : Option Units
  deriving DecidableEq

/-- The decision on a call that is accepted. -/
def allowedOn (o : CheckOptions) (claims : Claims) : Decision :=
  ⟨true, none, some claims.iss, some claims.sub, o.requiredCapability, some claims.jti⟩

/-- The decision on a call; `known` are its claims, once the source has assigned them. -/
def decisionOn (o : CheckOptions) (known : Option Claims) : Outcome Claims → Option Decision
  | .ok claims => some (allowedOn o claims)
  | .error (.swarmAuth code _) => some ⟨false, some code, known.map Claims.iss, o.audience,
      o.requiredCapability, known.map Claims.jti⟩
  | .error _ => none

/-- A call's outcome, the decision it reports, and the tracker's state. -/
structure Answer (σ : Type) where
  result : Outcome Claims
  decision : Option Decision
  state : σ

/-- `onDecision`, if there is one. -/
abbrev Callback := Option (Decision → Reply)

/-- Telling the callback: an error of its own takes the place of the outcome. -/
def report (take : Reply → Outcome Unit) (onDecision : Callback) (decision : Option Decision)
    (result : Outcome Claims) : Outcome Claims :=
  match onDecision, decision with
  | some f, some d => take (f d) >>= fun _ => result
  | _, _ => result

/-- `verifyAndCheck`, up to its report. -/
def enforce (c : Call) (s : σ) : Outcome Claims × σ :=
  match admission ed tracker c.options.toVerifyOptions c with
  | .error e => (.error e, s)
  | .ok a => reserveNow tracker a c.reserveClock s

/-- `verifyAndCheck`. -/
def verifyAndCheck (onDecision : Callback) (c : Call) (s : σ) : Answer σ :=
  let known := (verify ed c.options.toVerifyOptions c.token c.clock c.parentClock).toOption
  let r := enforce ed tracker c s
  let decision := decisionOn c.options known r.1
  ⟨report Reply.synchronous onDecision decision r.1, decision, r.2⟩

/-! ### In phases -/

/-- The options without the revocation store. -/
def VerifyOptions.unrevoked (o : VerifyOptions) : VerifyOptions :=
  { o with isRevoked := fun _ => false }

/-- The look-up of a link. -/
def lookUp (isRevoked : Units → Bool) (link : Claims) : Outcome Unit :=
  raiseIf (isRevoked link.jti) (.swarmAuth "TOKEN_REVOKED" "Token has been revoked")

/-- `asyncVerifyAndCheck`, up to its report; none of its awaits is interrupted. -/
def asyncEnforce (c : Call) (s : σ) : Outcome Claims × σ :=
  match admission ed tracker c.options.unrevoked c with
  | .error e => (.error e, s)
  | .ok a =>
      match (do let links ← linksOf a.claims; forM links (lookUp c.options.isRevoked)) with
      | .error e => (.error e, s)
      | .ok _ => reserveAwaited tracker a c.reserveClock s

/-- `asyncVerifyAndCheck`. -/
def asyncVerifyAndCheck (onDecision : Callback) (c : Call) (s : σ) : Answer σ :=
  let known := (admission ed tracker c.options.unrevoked c).toOption.map Admitted.claims
  let r := asyncEnforce ed tracker c s
  let decision := decisionOn c.options known r.1
  ⟨report Reply.awaited onDecision decision r.1, decision, r.2⟩

end Boundary

/-! ## Revocation -/

section Revocation
variable {ed : SignatureCheck} {o : VerifyOptions} {token : Units} {clock parentClock : ℚ}
  {c : Claims} {holder : Bool}

theorem parse_of_verifyCore (h : verifyCore ed o token clock holder = .ok c) :
    ∃ p, parse token = .ok p ∧ p.claims = c := by
  obtain ⟨p, hp, h⟩ := bind_eq_ok.mp h
  simp only [bind_eq_ok, pure_eq_ok] at h
  obtain ⟨_, -, _, -, _, -, _, -, rfl⟩ := h
  exact ⟨p, hp, rfl⟩

theorem verifyCore_unrevoked : verifyCore ed o token clock holder = .ok c ↔
    verifyCore ed o.unrevoked token clock holder = .ok c ∧ o.isRevoked c.jti = false := by
  simp only [verifyCore, bind_eq_ok, raiseIf_eq_ok, pure_eq_ok, Bool.not_eq_true]
  constructor
  · intro h
    obtain ⟨r, hr, signature, hs, u, hk, u', hl, u'', hrev, rfl⟩ := h
    exact ⟨⟨r, hr, signature, hs, u, hk, u', hl, u'', rfl, rfl⟩, hrev⟩
  · intro h
    obtain ⟨⟨r, hr, signature, hs, u, hk, u', hl, u'', -, rfl⟩, hrev⟩ := h
    exact ⟨r, hr, signature, hs, u, hk, u', hl, u'', hrev, rfl⟩

/-- A link that is not revoked passes as without a store. -/
theorem verifyCore_of_unrevoked (h : ∀ p, parse token = .ok p → o.isRevoked p.claims.jti = false) :
    verifyCore ed o token clock holder = verifyCore ed o.unrevoked token clock holder := by
  simp only [verifyCore]
  cases hp : parse token with
  | error e => rfl
  | ok p =>
      have hrev : o.isRevoked p.claims.jti = o.unrevoked.isRevoked p.claims.jti := h p hp
      simp only [bind, Except.bind, hrev]
      rfl

/-- What verification has established of the token and its parent. -/
structure Verified (ed : SignatureCheck) (o : VerifyOptions) (token : Units)
    (clock parentClock : ℚ) (c : Claims) : Prop where
  registry : ¬ (truthy c.prf = true ∧ o.registry.isNone = true)
  trust : o.publicKey.isSome ≠ o.registry.isSome
  core : verifyCore ed o token clock (truthy c.prf) = .ok c
  audience : ¬ (o.audience ≠ none ∧ o.audience ≠ some c.sub)
  root : truthy c.prf = false → truthy c.dlg = false
  child : truthy c.prf = true → ∃ p, parse (c.prf.getD []) = .ok p ∧ truthy p.claims.prf = false ∧
    verifyCore ed o (c.prf.getD []) parentClock false = .ok p.claims ∧
    assertAttenuated p.claims c = .ok ()

theorem verify_eq_ok : verify ed o token clock parentClock = .ok c ↔
    Verified ed o token clock parentClock c := by
  constructor
  · intro h
    obtain ⟨preview, hpreview, h⟩ := bind_eq_ok.mp h
    obtain ⟨hregistry, h⟩ := raiseIf_bind_eq_ok.mp h
    obtain ⟨htrust, h⟩ := raiseIf_bind_eq_ok.mp h
    obtain ⟨claims, hcore, h⟩ := bind_eq_ok.mp h
    obtain ⟨haudience, h⟩ := raiseIf_bind_eq_ok.mp h
    have hclaims : preview.claims = claims := by
      obtain ⟨p, hp, rfl⟩ := parse_of_verifyCore hcore
      rw [Except.ok.inj (hpreview.symm.trans hp)]
    subst hclaims
    by_cases hprf : truthy preview.claims.prf = true
    · rw [if_pos hprf] at h
      obtain ⟨parentPreview, hparent, h⟩ := bind_eq_ok.mp h
      obtain ⟨hhop, h⟩ := raiseIf_bind_eq_ok.mp h
      obtain ⟨parent, hpcore, h⟩ := bind_eq_ok.mp h
      obtain ⟨_, hattenuated, h⟩ := bind_eq_ok.mp h
      obtain rfl := pure_eq_ok.mp h
      obtain ⟨p, hp, rfl⟩ := parse_of_verifyCore hpcore
      rw [Except.ok.inj (hparent.symm.trans hp)] at hhop
      refine ⟨hregistry, htrust, hcore, haudience, fun hroot => ?_, fun _ => ⟨p, hp, ?_, hpcore,
        hattenuated⟩⟩
      · rw [hprf] at hroot
        exact absurd hroot (by decide)
      · exact eq_false_of_ne_true hhop
    · rw [if_neg hprf] at h
      obtain ⟨hdlg, h⟩ := raiseIf_bind_eq_ok.mp h
      obtain rfl := pure_eq_ok.mp h
      exact ⟨hregistry, htrust, hcore, haudience, fun _ => eq_false_of_ne_true hdlg,
        fun hchild => absurd hchild hprf⟩
  · intro h
    obtain ⟨p, hp, rfl⟩ := parse_of_verifyCore h.core
    refine bind_eq_ok.mpr ⟨p, hp, raiseIf_bind_eq_ok.mpr ⟨h.registry, raiseIf_bind_eq_ok.mpr
      ⟨h.trust, bind_eq_ok.mpr ⟨p.claims, h.core, raiseIf_bind_eq_ok.mpr ⟨h.audience, ?_⟩⟩⟩⟩⟩
    by_cases hprf : truthy p.claims.prf = true
    · obtain ⟨q, hq, hhop, hqcore, hattenuated⟩ := h.child hprf
      rw [if_pos hprf]
      exact bind_eq_ok.mpr ⟨q, hq, raiseIf_bind_eq_ok.mpr ⟨by rw [hhop]; decide,
        bind_eq_ok.mpr ⟨q.claims, hqcore, bind_eq_ok.mpr ⟨(), hattenuated, rfl⟩⟩⟩⟩
    · rw [if_neg hprf]
      have hdlg := h.root (eq_false_of_ne_true hprf)
      exact raiseIf_bind_eq_ok.mpr ⟨by rw [hdlg]; decide, rfl⟩

/-- The links of verified claims. -/
theorem Verified.links (h : Verified ed o token clock parentClock c) :
    ∃ links, linksOf c = .ok links ∧ c ∈ links ∧
      (truthy c.prf = true → ∃ p, parse (c.prf.getD []) = .ok p ∧ links = [p.claims, c]) ∧
      (truthy c.prf = false → links = [c]) := by
  by_cases hprf : truthy c.prf = true
  · obtain ⟨p, hp, -⟩ := h.child hprf
    refine ⟨[p.claims, c], ?_, by simp, fun _ => ⟨p, hp, rfl⟩, fun hroot => ?_⟩
    · rw [linksOf, if_pos hprf]
      exact bind_eq_ok.mpr ⟨p, hp, rfl⟩
    · rw [hprf] at hroot
      exact absurd hroot (by decide)
  · refine ⟨[c], ?_, by simp, fun hchild => absurd hchild hprf, fun _ => rfl⟩
    rw [linksOf, if_neg hprf]
    rfl

/-- **Verification is that without a store, and no link is revoked.** -/
theorem verify_iff_unrevoked : verify ed o token clock parentClock = .ok c ↔
    verify ed o.unrevoked token clock parentClock = .ok c ∧
      ∀ links, linksOf c = .ok links → ∀ link ∈ links, o.isRevoked link.jti = false := by
  rw [verify_eq_ok, verify_eq_ok]
  constructor
  · intro h
    obtain ⟨hcore, hself⟩ := verifyCore_unrevoked.mp h.core
    refine ⟨⟨h.registry, h.trust, hcore, h.audience, h.root, fun hprf => ?_⟩, ?_⟩
    · obtain ⟨p, hp, hhop, hpcore, hattenuated⟩ := h.child hprf
      exact ⟨p, hp, hhop, (verifyCore_unrevoked.mp hpcore).1, hattenuated⟩
    · intro links hlinks link hmem
      obtain ⟨links', hlinks', -, hchild, hroot⟩ := h.links
      obtain rfl := Except.ok.inj (hlinks.symm.trans hlinks')
      by_cases hprf : truthy c.prf = true
      · obtain ⟨q, hq, rfl⟩ := hchild hprf
        obtain ⟨p, hp, -, hpcore, -⟩ := h.child hprf
        obtain rfl := Except.ok.inj (hp.symm.trans hq)
        rcases List.mem_cons.mp hmem with rfl | hmem
        · exact (verifyCore_unrevoked.mp hpcore).2
        · rw [List.mem_singleton.mp hmem]
          exact hself
      · rw [hroot (eq_false_of_ne_true hprf)] at hmem
        rw [List.mem_singleton.mp hmem]
        exact hself
  · intro h
    obtain ⟨h, hrev⟩ := h
    obtain ⟨links, hlinks, hself, hchild, -⟩ := h.links
    refine ⟨h.registry, h.trust, verifyCore_unrevoked.mpr ⟨h.core, hrev links hlinks c hself⟩,
      h.audience, h.root, fun hprf => ?_⟩
    obtain ⟨p, hp, hhop, hpcore, hattenuated⟩ := h.child hprf
    obtain ⟨q, hq, rfl⟩ := hchild hprf
    obtain rfl := Except.ok.inj (hp.symm.trans hq)
    exact ⟨p, hp, hhop, verifyCore_unrevoked.mpr ⟨hpcore, hrev _ hlinks p.claims (by simp)⟩,
      hattenuated⟩

/-- Neither the token nor its parent is revoked. -/
def Unrevoked (o : VerifyOptions) (token : Units) : Prop :=
  ∀ p, parse token = .ok p → o.isRevoked p.claims.jti = false ∧
    ∀ q, parse (p.claims.prf.getD []) = .ok q → o.isRevoked q.claims.jti = false

/-- A chain that is not revoked is judged as without a store. -/
theorem Unrevoked.verify (h : Unrevoked o token) :
    verify ed o token clock parentClock = Node.verify ed o.unrevoked token clock parentClock := by
  simp only [Node.verify]
  cases hp : parse token with
  | error e => rfl
  | ok p =>
      obtain ⟨hself, hparent⟩ := h p hp
      have hcore : ∀ holder, verifyCore ed o token clock holder =
          verifyCore ed o.unrevoked token clock holder := fun holder =>
        verifyCore_of_unrevoked fun q hq => by rwa [← Except.ok.inj (hp.symm.trans hq)]
      have hparents : verifyCore ed o (p.claims.prf.getD []) parentClock false =
          verifyCore ed o.unrevoked (p.claims.prf.getD []) parentClock false :=
        verifyCore_of_unrevoked hparent
      simp only [bind, Except.bind, hcore]
      cases hc : verifyCore ed o.unrevoked token clock (truthy p.claims.prf) with
      | error e => rfl
      | ok claims =>
          obtain ⟨q, hq, rfl⟩ := parse_of_verifyCore hc
          obtain rfl := Except.ok.inj (hp.symm.trans hq)
          simp only [hparents]
          rfl

end Revocation

/-! ## In phases or at once -/

section Phases
variable {σ : Type} {ed : SignatureCheck} {tracker : Option (Tracker σ)} {c : Call} {a : Admitted}

theorem admission_eq_ok {o : VerifyOptions} : admission ed tracker o c = .ok a ↔
    verify ed o c.token c.clock c.parentClock = .ok a.claims ∧
    checkCall tracker c.options a.claims = .ok a.amount ∧
    match tracker with
    | none => a.chain = []
    | some t => chainFor t a.claims = .ok a.chain := by
  simp only [admission, bind_eq_ok]
  cases tracker with
  | none =>
      simp only [pure_eq_ok]
      constructor
      · intro h
        obtain ⟨claims, hv, amount, hx, rfl⟩ := h
        exact ⟨hv, hx, rfl⟩
      · intro h
        obtain ⟨hv, hx, hchain⟩ := h
        exact ⟨_, hv, _, hx, by rw [← hchain]⟩
  | some t =>
      simp only [bind_eq_ok, pure_eq_ok]
      constructor
      · intro h
        obtain ⟨claims, hv, amount, hx, chain, hchain, rfl⟩ := h
        exact ⟨hv, hx, hchain⟩
      · intro h
        obtain ⟨hv, hx, hchain⟩ := h
        exact ⟨_, hv, _, hx, _, hchain, rfl⟩

/-- The look-ups of links pass when none is revoked. -/
theorem lookUps_eq_ok {isRevoked : Units → Bool} {links : List Claims} :
    forM links (lookUp isRevoked) = .ok () ↔ ∀ link ∈ links, isRevoked link.jti = false := by
  have hone : ∀ link, lookUp isRevoked link = .ok () ↔ isRevoked link.jti = false := by
    intro link
    rw [lookUp, raiseIf_eq_ok, Bool.not_eq_true]
  rw [forM_eq_ok]
  simp only [hone]

/-- **Both admit the same calls**: one with the store, the other once it has looked up. -/
theorem admission_iff_unrevoked {o : VerifyOptions} : admission ed tracker o c = .ok a ↔
    admission ed tracker o.unrevoked c = .ok a ∧
      (do let links ← linksOf a.claims; forM links (lookUp o.isRevoked)) = .ok () := by
  rw [admission_eq_ok, admission_eq_ok, verify_iff_unrevoked, bind_eq_ok]
  constructor
  · intro h
    obtain ⟨⟨hv, hrev⟩, hrest⟩ := h
    obtain ⟨links, hlinks, -⟩ := (verify_eq_ok.mp hv).links
    exact ⟨⟨hv, hrest⟩, links, hlinks, lookUps_eq_ok.mpr (hrev links hlinks)⟩
  · intro h
    obtain ⟨⟨hv, hrest⟩, links, hlinks, hrev⟩ := h
    refine ⟨⟨hv, fun links' hlinks' => ?_⟩, hrest⟩
    rw [← Except.ok.inj (hlinks.symm.trans hlinks')]
    exact lookUps_eq_ok.mp hrev

/-- The store has no say about a token whose links are not revoked. -/
theorem Unrevoked.admission_eq (h : Unrevoked c.options.toVerifyOptions c.token) :
    admission ed tracker c.options.unrevoked c = admission ed tracker c.options.toVerifyOptions c := by
  rw [admission, admission, h.verify]

/-- A reply that is no promise. -/
def Reply.AtOnce : Reply → Prop
  | .promise _ => False
  | _ => True

theorem Reply.synchronous_eq_ok {r : Reply} :
    r.synchronous = .ok () ↔ r.awaited = .ok () ∧ r.AtOnce := by
  cases r <;> simp [Reply.synchronous, Reply.awaited, Reply.AtOnce]

theorem Reply.AtOnce.awaited_eq {r : Reply} (h : r.AtOnce) : r.awaited = r.synchronous := by
  cases r with
  | promise settled => exact h.elim
  | _ => rfl

section Replies
variable {take take' : Reply → Outcome Unit} {lacking lacking' : String} {now : ℚ} {s : σ}
  {claims : Claims}

/-- What is made of a reply does not change what was reserved. -/
theorem reserve_state : (reserve tracker take lacking a now s).2 =
    (reserve tracker take' lacking' a now s).2 := by
  cases tracker with
  | none => rfl
  | some t =>
      simp only [reserve]
      cases t.reply a now s <;> rfl

theorem reserve_eq_ok : (reserve tracker take lacking a now s).1 = .ok claims ↔ a.claims = claims ∧
    ∀ t, tracker = some t → ∃ r, t.reply a now s = some r ∧ take r.1 = .ok () := by
  cases tracker with
  | none => simp [reserve]
  | some t =>
      simp only [reserve, Option.some.injEq, forall_eq']
      cases hreply : t.reply a now s with
      | none => simp
      | some r =>
          cases htake : take r.1 <;> simp [htake, Except.map]

/-- A tracker with a method for chains replies. -/
theorem reserve_congr (hchains : ∀ t, tracker = some t → t.checkAndRecordChain.isSome = true)
    (htake : ∀ t r, tracker = some t → t.reply a now s = some r → take r.1 = take' r.1) :
    (reserve tracker take lacking a now s).1 = (reserve tracker take' lacking' a now s).1 := by
  cases tracker with
  | none => rfl
  | some t =>
      have hsome : (t.reply a now s).isSome = true := by
        have hmethod := hchains t rfl
        rw [Tracker.reply]
        split
        · rfl
        · rwa [Option.isSome_map]
      obtain ⟨r, hr⟩ := Option.isSome_iff_exists.mp hsome
      simp only [reserve, hr, htake t r rfl hr]

theorem report_error {onDecision : Callback} {decision : Option Decision} {e : Thrown} :
    report take onDecision decision (.error e) ≠ .ok claims := by
  cases onDecision with
  | none => exact error_ne_ok
  | some f =>
      cases decision with
      | none => exact error_ne_ok
      | some d =>
          simp only [report]
          cases take (f d) <;> exact error_ne_ok

/-- A call is accepted when its reservation is made and the callback takes the decision. -/
theorem report_eq_ok {onDecision : Callback} {o : CheckOptions} {known : Option Claims}
    {result : Outcome Claims} :
    report take onDecision (decisionOn o known result) result = .ok claims ↔
      result = .ok claims ∧ ∀ f, onDecision = some f → take (f (allowedOn o claims)) = .ok () := by
  cases result with
  | error e => exact iff_of_false report_error fun h => error_ne_ok h.1
  | ok c =>
      cases onDecision with
      | none => simp [report]
      | some f =>
          simp only [report, decisionOn, Except.ok.injEq, Option.some.injEq, forall_eq', bind_eq_ok]
          constructor
          · intro h
            obtain ⟨_, htake, rfl⟩ := h
            exact ⟨rfl, htake⟩
          · intro h
            obtain ⟨rfl, htake⟩ := h
            exact ⟨(), htake, rfl⟩

theorem report_returns {onDecision : Callback} {decision : Option Decision} {result : Outcome Claims}
    (hreturns : ∀ f d, onDecision = some f → f d = .returns) (htake : take .returns = .ok ()) :
    report take onDecision decision result = result := by
  cases onDecision with
  | none => rfl
  | some f =>
      cases decision with
      | none => rfl
      | some d =>
          simp only [report, hreturns f d rfl, htake]
          rfl

end Replies

/-- The tracker and the callback answer the accepted call without a promise. -/
def AnsweredAtOnce (ed : SignatureCheck) (tracker : Option (Tracker σ)) (onDecision : Callback)
    (c : Call) (s : σ) : Prop :=
  ∀ a, admission ed tracker c.options.toVerifyOptions c = .ok a →
    (∀ t r, tracker = some t → t.reply a c.reserveClock s = some r → r.1.AtOnce) ∧
    ∀ f, onDecision = some f → (f (allowedOn c.options a.claims)).AtOnce

/-- **The two boundaries up to their reports**: the same reservation, and the same outcome but
for a promise and for what is said of a link that is revoked. -/
structure Agreement (ed : SignatureCheck) (tracker : Option (Tracker σ)) (c : Call) (s : σ) : Prop where
  state : (asyncEnforce ed tracker c s).2 = (enforce ed tracker c s).2
  admitted : ∀ claims, (asyncEnforce ed tracker c s).1 = .ok claims →
    ∃ a, admission ed tracker c.options.toVerifyOptions c = .ok a ∧ a.claims = claims
  accepts : ∀ claims, (enforce ed tracker c s).1 = .ok claims ↔
    (asyncEnforce ed tracker c s).1 = .ok claims ∧
      ∀ a, admission ed tracker c.options.toVerifyOptions c = .ok a → ∀ t r, tracker = some t →
        t.reply a c.reserveClock s = some r → r.1.AtOnce
  refuses : Unrevoked c.options.toVerifyOptions c.token →
    (∀ a, admission ed tracker c.options.toVerifyOptions c = .ok a → ∀ t r, tracker = some t →
      t.reply a c.reserveClock s = some r → r.1.AtOnce) →
    (∀ t, tracker = some t → t.checkAndRecordChain.isSome = true) →
    (asyncEnforce ed tracker c s).1 = (enforce ed tracker c s).1

theorem enforce_agrees (ed : SignatureCheck) (tracker : Option (Tracker σ)) (c : Call) (s : σ) :
    Agreement ed tracker c s := by
  have hiff : ∀ a, admission ed tracker c.options.toVerifyOptions c = .ok a ↔ _ :=
    fun a => admission_iff_unrevoked
  cases hsync : admission ed tracker c.options.toVerifyOptions c with
  | ok a =>
      obtain ⟨hasync, hlinks⟩ := (hiff a).mp hsync
      have henforce : enforce ed tracker c s = reserveNow tracker a c.reserveClock s := by
        rw [enforce, hsync]
      have hawaited : asyncEnforce ed tracker c s = reserveAwaited tracker a c.reserveClock s := by
        simp only [asyncEnforce, hasync, hlinks]
      refine ⟨?_, fun claims h => ?_, fun claims => ?_, fun _ hatonce hchains => ?_⟩
      · rw [henforce, hawaited]
        exact reserve_state
      · rw [hawaited, reserveAwaited, reserve_eq_ok] at h
        exact ⟨a, hsync, h.1⟩
      · rw [henforce, hawaited, reserveNow, reserveAwaited, reserve_eq_ok, reserve_eq_ok]
        constructor
        · intro h
          obtain ⟨hclaims, hreply⟩ := h
          refine ⟨⟨hclaims, fun t ht => ?_⟩, fun a' ha' t r ht hr => ?_⟩
          · obtain ⟨r, hr, htake⟩ := hreply t ht
            exact ⟨r, hr, (Reply.synchronous_eq_ok.mp htake).1⟩
          · obtain rfl := Except.ok.inj (hsync.symm.trans ha')
            obtain ⟨r', hr', htake⟩ := hreply t ht
            obtain rfl := Option.some.inj (hr.symm.trans hr')
            exact (Reply.synchronous_eq_ok.mp htake).2
        · intro h
          obtain ⟨⟨hclaims, hreply⟩, hatonce⟩ := h
          refine ⟨hclaims, fun t ht => ?_⟩
          obtain ⟨r, hr, htake⟩ := hreply t ht
          exact ⟨r, hr, Reply.synchronous_eq_ok.mpr ⟨htake, hatonce a hsync t r ht hr⟩⟩
      · rw [henforce, hawaited]
        exact reserve_congr hchains fun t r ht hr => (hatonce a hsync t r ht hr).awaited_eq
  | error e =>
      have henforce : enforce ed tracker c s = (.error e, s) := by
        rw [enforce, hsync]
      have hrefused : ∃ e', asyncEnforce ed tracker c s = (.error e', s) ∧
          (Unrevoked c.options.toVerifyOptions c.token → e' = e) := by
        cases hasync : admission ed tracker c.options.unrevoked c with
        | error e' =>
            refine ⟨e', by simp only [asyncEnforce, hasync], fun h => ?_⟩
            rw [h.admission_eq, hsync] at hasync
            exact (Except.error.inj hasync).symm
        | ok a =>
            cases hlinks : (do let links ← linksOf a.claims; forM links (lookUp c.options.isRevoked)) with
            | ok u =>
                rw [(hiff a).mpr ⟨hasync, hlinks⟩] at hsync
                cases hsync
            | error e' =>
                refine ⟨e', by simp only [asyncEnforce, hasync, hlinks], fun h => ?_⟩
                rw [h.admission_eq, hsync] at hasync
                cases hasync
      obtain ⟨e', hawaited, hsame⟩ := hrefused
      refine ⟨by rw [henforce, hawaited], fun claims h => ?_, fun claims => ?_, fun h _ _ => ?_⟩
      · rw [hawaited] at h
        exact absurd h error_ne_ok
      · rw [henforce, hawaited]
        exact iff_of_false error_ne_ok fun h => error_ne_ok h.1
      · rw [henforce, hawaited, hsame h]

/-- **The asynchronous boundary agrees with the synchronous one**: it leaves the tracker in the
same state; the synchronous one accepts the calls that it accepts and that are answered without
a promise, with the same decision; and both raise the same error of a call whose links are not
revoked, when there is no promise, the callback returns and the tracker can charge chains. -/
theorem asyncVerifyAndCheck_agrees (ed : SignatureCheck) (tracker : Option (Tracker σ))
    (onDecision : Callback) (c : Call) (s : σ) :
    (asyncVerifyAndCheck ed tracker onDecision c s).state =
      (verifyAndCheck ed tracker onDecision c s).state ∧
    (∀ claims, (verifyAndCheck ed tracker onDecision c s).result = .ok claims ↔
      (asyncVerifyAndCheck ed tracker onDecision c s).result = .ok claims ∧
        AnsweredAtOnce ed tracker onDecision c s) ∧
    (∀ claims, (verifyAndCheck ed tracker onDecision c s).result = .ok claims →
      (asyncVerifyAndCheck ed tracker onDecision c s).decision =
        (verifyAndCheck ed tracker onDecision c s).decision) ∧
    (Unrevoked c.options.toVerifyOptions c.token → AnsweredAtOnce ed tracker onDecision c s →
      (∀ f d, onDecision = some f → f d = .returns) →
      (∀ t, tracker = some t → t.checkAndRecordChain.isSome = true) →
      (asyncVerifyAndCheck ed tracker onDecision c s).result =
        (verifyAndCheck ed tracker onDecision c s).result) := by
  have hagree := enforce_agrees ed tracker c s
  simp only [asyncVerifyAndCheck, verifyAndCheck]
  refine ⟨hagree.state, fun claims => ?_, fun claims h => ?_, fun h hatonce hreturns hchains => ?_⟩
  · rw [report_eq_ok, report_eq_ok, hagree.accepts]
    constructor
    · intro h
      obtain ⟨⟨haccepted, hatonce⟩, htold⟩ := h
      obtain ⟨a, ha, rfl⟩ := hagree.admitted claims haccepted
      refine ⟨⟨haccepted, fun f hf => (Reply.synchronous_eq_ok.mp (htold f hf)).1⟩, fun a' ha' => ?_⟩
      obtain rfl := Except.ok.inj (ha.symm.trans ha')
      exact ⟨hatonce a ha, fun f hf => (Reply.synchronous_eq_ok.mp (htold f hf)).2⟩
    · intro h
      obtain ⟨⟨haccepted, htold⟩, hatonce⟩ := h
      obtain ⟨a, ha, rfl⟩ := hagree.admitted claims haccepted
      exact ⟨⟨haccepted, fun a ha => (hatonce a ha).1⟩, fun f hf =>
        Reply.synchronous_eq_ok.mpr ⟨htold f hf, (hatonce a ha).2 f hf⟩⟩
  · obtain ⟨haccepted, -⟩ := report_eq_ok.mp h
    rw [haccepted, ((hagree.accepts claims).mp haccepted).1]
    rfl
  · rw [report_returns hreturns rfl, report_returns hreturns rfl]
    exact hagree.refuses h (fun a ha => (hatonce a ha).1) hchains

end Phases
end SwarmAuth.Node
