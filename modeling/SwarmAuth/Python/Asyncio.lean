import SwarmAuth.Python.Enforcement

/-!
# Awaited enforcement

`async_verify_and_check` runs `verify_and_check` against a stand-in that only remembers
what it is asked to reserve, then asks the revocation store about the chain and hands the
reservation to the tracker. With synchronous stores it decides as `verify_and_check` does.

## Main definitions

* `Reservation`, `standIn` — `_Reservation`.
* `asyncVerifyAndCheck` — `async_verify_and_check`.
* `async_agrees` — awaited and synchronous enforcement agree.
-/
namespace SwarmAuth.Python.Asyncio

variable {σ : Type}

/-! ## The awaited path -/

/-- What a `_Reservation` captures. -/
structure Reservation where
  chain : List CapabilityClaims := []
  amount : Value := .scalar (.float (.finite false .zero))

/-- A `_Reservation` in place of a tracker, with the tracker's flags. -/
def standIn (t : Tracker σ) : Tracker Reservation where
  requiresChain := t.requiresChain
  supportsSharedBudgets := t.supportsSharedBudgets
  checkAndRecord claims amount _ _ := (.ok (), ⟨[claims], amount⟩)
  checkAndRecordChain := some fun chain amount _ _ => (.ok (), ⟨chain, amount⟩)

/-- The options handed on to `verify_and_check`. -/
def innerCall (c : Call) : Call := { c with revoked := fun _ => false, onDecision := none }

/-- The revocation store is asked about every link, the parent first. -/
def checkRevoked (c : Call) (claims : CapabilityClaims) : Outcome Unit := do
  let parent ← parentOf claims
  forM (parent.toList ++ [claims]) fun item => raiseIf (c.revoked item.jti)
    (.of .tokenRevoked [.text "Token '", .str item.jti, .text "' has been revoked"])

/-- The captured reservation, made with the tracker. -/
def reserve (t : Tracker σ) (claims : CapabilityClaims) (r : Reservation) (now : ℚ) (s : σ) :
    Outcome Unit × σ :=
  if 1 < r.chain.length then
    match t.checkAndRecordChain with
    | some record => record r.chain r.amount now s
    | none => (.error (constraintViolation [.text "Delegated limits require atomic chain accounting"]
        "max_calls"), s)
  else t.checkAndRecord claims r.amount now s

/-- The reservation, if there is a tracker. -/
def reserve? (tracker : Option (Tracker σ)) (claims : CapabilityClaims) (r : Reservation) (now : ℚ)
    (s : σ) : Outcome Unit × σ :=
  match tracker with
  | some t => reserve t claims r now s
  | none => (.ok (), s)

/-- `async_verify_and_check`. -/
def asyncVerifyAndCheck (ed : SignatureCheck) (tracker : Option (Tracker σ)) (c : Call) (s : σ) :
    Outcome CapabilityClaims × σ :=
  match verifyAndCheck ed (tracker.map standIn) (innerCall c) {} with
  | (.error e, _) => (denied c none e, s)
  | (.ok claims, r) =>
      match checkRevoked c claims with
      | .error e => (denied c (some claims) e, s)
      | .ok () =>
          match reserve? tracker claims r c.reserveTime s with
          | (.error e, s') => (denied c (some claims) e, s')
          | (.ok (), s') =>
              (decide? c ⟨"allowed", none, some claims.iss, some claims.sub, c.requiredCapability,
                some claims.jti⟩ (.ok claims), s')

/-! ## Agreement -/

/-- The tracker was not charged: it was not asked, or its method raised. -/
def Uncharged (tracker : Option (Tracker σ)) (s s' : σ) : Prop :=
  s' = s ∨ ∃ t e, tracker = some t ∧
    ((∃ claims amount now, t.checkAndRecord claims amount now s = (.error e, s')) ∨
      ∃ record chain amount now, t.checkAndRecordChain = some record ∧
        record chain amount now s = (.error e, s'))

/-- Two enforcements of a call agree: they return the same claims or both refuse, they leave
the same tracker state, and a refusal that no callback raised has charged nothing. -/
structure Agree (tracker : Option (Tracker σ)) (c : Call) (s : σ)
    (a b : Outcome CapabilityClaims × σ) : Prop where
  returns : ∀ claims, a.1 = .ok claims ↔ b.1 = .ok claims
  state : a.2 = b.2
  uncharged : c.onDecision = none → (∀ claims, b.1 ≠ .ok claims) → Uncharged tracker s b.2

section Verify
variable {ed : SignatureCheck} {o : VerifyOptions}

theorem verifyCore_unrevoked {token : Units} {time : ℚ} {holder : Bool} {c : CapabilityClaims} :
    verifyCore ed o token time holder = .ok c ↔
      verifyCore ed { o with revoked := fun _ => false } token time holder = .ok c ∧
        o.revoked c.jti = false := by
  rw [verifyCore_ok, verifyCore_ok]
  constructor
  · intro h
    obtain ⟨hl, hkeys, r, hr, hc, hsig, hlive⟩ := h
    exact ⟨⟨hl, hkeys, r, hr, hc, hsig, { hlive with unrevoked := rfl }⟩, hlive.unrevoked⟩
  · intro h
    obtain ⟨⟨hl, hkeys, r, hr, hc, hsig, hlive⟩, hrev⟩ := h
    exact ⟨hl, hkeys, r, hr, hc, hsig, { hlive with unrevoked := hrev }⟩

/-- The parent of a verified token parses again. -/
theorem parentOf_of_verify {token : Units} {time parentTime : ℚ} {c : CapabilityClaims}
    (h : verify ed o token time parentTime = .ok c) :
    (c.prf = none ∧ parentOf c = .ok none) ∨ ∃ prf parent, c.prf = some prf ∧
      verifyCore ed o prf parentTime false = .ok parent ∧ parentOf c = .ok (some parent) := by
  cases hprf : c.prf with
  | none =>
      left
      rw [parentOf, hprf]
      exact ⟨rfl, rfl⟩
  | some prf =>
      right
      obtain ⟨parent, -, hcore, -⟩ := (verify_ok.mp h).2.2.2.2 prf hprf
      obtain ⟨-, -, r, hr, rfl, -⟩ := verifyCore_ok.mp hcore
      have htruthy := c.truthy_prf
      simp only [hprf, truthy, Option.isSome_some, decide_eq_true_eq] at htruthy
      refine ⟨prf, r.claims, rfl, hcore, ?_⟩
      have hne : prf ≠ [] := by
        intro hnil
        simp [hnil] at htruthy
      rw [parentOf, hprf]
      simp only [if_neg hne, hr]
      rfl

/-- Verification is verification without revocation, and no link revoked. -/
theorem verify_unrevoked {token : Units} {time parentTime : ℚ} {c : CapabilityClaims} :
    verify ed o token time parentTime = .ok c ↔
      verify ed { o with revoked := fun _ => false } token time parentTime = .ok c ∧
        ∀ parent, parentOf c = .ok parent → ∀ item ∈ parent.toList ++ [c], o.revoked item.jti = false := by
  constructor
  · intro h
    obtain ⟨hreg, hcore, haud, hdlg, hchild⟩ := verify_ok.mp h
    obtain ⟨hcore', hrev⟩ := verifyCore_unrevoked.mp hcore
    refine ⟨verify_ok.mpr ⟨hreg, hcore', haud, hdlg, ?_⟩, ?_⟩
    · intro prf hprf
      obtain ⟨parent, hpp, hpcore, hatt⟩ := hchild prf hprf
      exact ⟨parent, hpp, (verifyCore_unrevoked.mp hpcore).1, hatt⟩
    · intro parent hparent item hitem
      rcases parentOf_of_verify h with ⟨-, hnone⟩ | ⟨prf, p, -, hpcore, hsome⟩
      · obtain rfl := Except.ok.inj (hparent.symm.trans hnone)
        rw [List.mem_singleton.mp hitem]
        exact hrev
      · obtain rfl := Except.ok.inj (hparent.symm.trans hsome)
        rcases List.mem_cons.mp hitem with rfl | hitem
        · exact (verifyCore_unrevoked.mp hpcore).2
        · rw [List.mem_singleton.mp hitem]
          exact hrev
  · intro h
    obtain ⟨h, hrev⟩ := h
    obtain ⟨hreg, hcore, haud, hdlg, hchild⟩ := verify_ok.mp h
    rcases parentOf_of_verify h with ⟨hprf, hnone⟩ | ⟨prf, p, hprf, hpcore, hsome⟩
    · have hself := hrev none hnone c (by simp)
      refine verify_ok.mpr ⟨hreg, verifyCore_unrevoked.mpr ⟨hcore, hself⟩, haud, hdlg, ?_⟩
      intro prf hprf'
      rw [hprf] at hprf'
      exact absurd hprf' nofun
    · have hself := hrev (some p) hsome c (by simp)
      have hparent := hrev (some p) hsome p (by simp)
      refine verify_ok.mpr ⟨hreg, verifyCore_unrevoked.mpr ⟨hcore, hself⟩, haud, hdlg, ?_⟩
      intro prf' hprf'
      obtain ⟨q, hqp, hqcore, hatt⟩ := hchild prf' hprf'
      obtain rfl := Option.some.inj (hprf.symm.trans hprf')
      obtain rfl := Except.ok.inj (hpcore.symm.trans hqcore)
      exact ⟨p, hqp, verifyCore_unrevoked.mpr ⟨hpcore, hparent⟩, hatt⟩

end Verify

theorem checkRevoked_ok {c : Call} {claims : CapabilityClaims} {parent : Option CapabilityClaims}
    (h : parentOf claims = .ok parent) : checkRevoked c claims = .ok () ↔
      ∀ item ∈ parent.toList ++ [claims], c.revoked item.jti = false := by
  have hforM : checkRevoked c claims = forM (parent.toList ++ [claims]) fun item =>
      raiseIf (c.revoked item.jti)
        (.of .tokenRevoked [.text "Token '", .str item.jti, .text "' has been revoked"]) := by
    rw [checkRevoked, h]
    rfl
  rw [hforM, forM_eq_ok]
  simp only [raiseIf_eq_ok, Bool.not_eq_true]

/-! ### Both paths -/

section Paths
variable {ed : SignatureCheck} {tracker : Option (Tracker σ)} {c : Call} {s : σ}
  {claims : CapabilityClaims}

/-- The end of a call whose reservation was tried. -/
def conclude (c : Call) (claims : CapabilityClaims) (reserved : Outcome Unit × σ) :
    Outcome CapabilityClaims × σ :=
  match reserved with
  | (.error e, s') => (denied c (some claims) e, s')
  | (.ok (), s') =>
      (decide? c ⟨"allowed", none, some claims.iss, some claims.sub, c.requiredCapability,
        some claims.jti⟩ (.ok claims), s')

/-- The reservation of the synchronous path. -/
def reserved (tracker : Option (Tracker σ)) (claims : CapabilityClaims) (amount : Value) (now : ℚ)
    (s : σ) : Outcome Unit × σ :=
  match tracker with
  | some t => t.reserve claims amount now s
  | none => (.ok (), s)

theorem denied_error (c : Call) (claims : Option CapabilityClaims) (e : PyError) :
    ∃ e', denied c claims e = .error e' := by
  cases h : denied c claims e with
  | error e' => exact ⟨e', rfl⟩
  | ok r => exact absurd h denied_ne_ok

theorem supports_standIn (tracker : Option (Tracker σ)) :
    (tracker.map standIn).any Tracker.supportsSharedBudgets =
      tracker.any Tracker.supportsSharedBudgets := by
  cases tracker <;> rfl

/-- The synchronous path: refused before the tracker is asked, or concluded after it. -/
theorem verifyAndCheck_eq (ed : SignatureCheck) (tracker : Option (Tracker σ)) (c : Call) (s : σ) :
    ((∃ e, verifyAndCheck ed tracker c s = (.error e, s)) ∧ ∀ claims amount,
        verify ed c.verifyOptions c.token c.verifyTime c.parentTime = .ok claims →
        checkCall c (tracker.any Tracker.supportsSharedBudgets) tracker.isSome claims ≠ .ok amount) ∨
      ∃ claims amount, verify ed c.verifyOptions c.token c.verifyTime c.parentTime = .ok claims ∧
        checkCall c (tracker.any Tracker.supportsSharedBudgets) tracker.isSome claims = .ok amount ∧
        verifyAndCheck ed tracker c s = conclude c claims
          (reserved tracker claims (.scalar (.float (.finite false amount))) c.reserveTime s) := by
  cases hv : verify ed c.verifyOptions c.token c.verifyTime c.parentTime with
  | error e =>
      obtain ⟨e', he'⟩ := denied_error c none e
      refine Or.inl ⟨⟨e', ?_⟩, fun _ _ h => absurd h error_ne_ok⟩
      rw [verifyAndCheck, hv]
      simp only [he']
  | ok claims =>
      cases hc : checkCall c (tracker.any Tracker.supportsSharedBudgets) tracker.isSome claims with
      | error e =>
          obtain ⟨e', he'⟩ := denied_error c (some claims) e
          refine Or.inl ⟨⟨e', ?_⟩, ?_⟩
          · rw [verifyAndCheck, hv]
            simp only [enforce, hc, he']
          · intro claims' amount hclaims
            obtain rfl := Except.ok.inj hclaims
            rw [hc]
            exact error_ne_ok
      | ok amount =>
          refine Or.inr ⟨claims, amount, rfl, hc, ?_⟩
          rw [verifyAndCheck, hv]
          simp only [enforce, hc]
          cases tracker with
          | none => rfl
          | some t =>
              simp only [reserved]
              rcases t.reserve claims (.scalar (.float (.finite false amount))) c.reserveTime s with
                ⟨e | u, s'⟩ <;> rfl

/-- What the stand-in captures is what the tracker would be asked to reserve. -/
theorem reserve_captured {parent : Option CapabilityClaims} (hp : parentOf claims = .ok parent)
    (t : Tracker σ) (amount : Value) (now : ℚ) (s : σ) :
    ∃ r, (standIn t).reserve claims amount now {} = (.ok (), r) ∧
      (reserve t claims r now s).2 = (t.reserve claims amount now s).2 ∧
      ((reserve t claims r now s).1 = .ok () ↔ (t.reserve claims amount now s).1 = .ok ()) := by
  cases parent with
  | none =>
      refine ⟨⟨[claims], amount⟩, ?_, ?_, ?_⟩ <;> simp [Tracker.reserve, hp, standIn, reserve]
  | some parent =>
      by_cases hchain : stateful parent ≠ [] ∨ t.requiresChain = true
      · refine ⟨⟨[parent, claims], amount⟩, ?_, ?_, ?_⟩
        · simp only [Tracker.reserve, hp, standIn]
          exact if_pos hchain
        · cases hm : t.checkAndRecordChain <;>
            simp [Tracker.reserve, hp, reserve, if_pos hchain, hm]
        · cases hm : t.checkAndRecordChain <;>
            simp [Tracker.reserve, hp, reserve, if_pos hchain, hm]
      · refine ⟨⟨[claims], amount⟩, ?_, ?_, ?_⟩
        · simp only [Tracker.reserve, hp, standIn]
          exact if_neg hchain
        · simp [Tracker.reserve, hp, reserve, if_neg hchain]
        · simp [Tracker.reserve, hp, reserve, if_neg hchain]

/-- A reservation that raises has charged nothing. -/
theorem uncharged_of_reserve {t : Tracker σ} {amount : Value} {now : ℚ} {s' : σ} {e : PyError}
    (h : t.reserve claims amount now s = (.error e, s')) : Uncharged (some t) s s' := by
  cases hp : parentOf claims with
  | error e' =>
      simp only [Tracker.reserve, hp] at h
      exact Or.inl (Prod.mk.inj h).2.symm
  | ok parent =>
      cases parent with
      | none =>
          simp only [Tracker.reserve, hp] at h
          exact Or.inr ⟨t, e, rfl, Or.inl ⟨_, _, _, h⟩⟩
      | some parent =>
          by_cases hchain : stateful parent ≠ [] ∨ t.requiresChain = true
          · simp only [Tracker.reserve, hp, if_pos hchain] at h
            cases hm : t.checkAndRecordChain with
            | none =>
                rw [hm] at h
                exact Or.inl (Prod.mk.inj h).2.symm
            | some record =>
                rw [hm] at h
                exact Or.inr ⟨t, e, rfl, Or.inr ⟨record, _, _, _, hm, h⟩⟩
          · simp only [Tracker.reserve, hp, if_neg hchain] at h
            exact Or.inr ⟨t, e, rfl, Or.inl ⟨_, _, _, h⟩⟩

/-- Two refusals before the tracker is asked agree. -/
theorem Agree.of_refused (e e' : PyError) : Agree tracker c s (.error e, s) (.error e', s) where
  returns _ := ⟨fun h => absurd h error_ne_ok, fun h => absurd h error_ne_ok⟩
  state := rfl
  uncharged _ _ := Or.inl rfl

/-- Calls whose reservations agree conclude alike. -/
theorem Agree.of_conclude {a b : Outcome Unit × σ} (hstate : a.2 = b.2)
    (hok : a.1 = .ok () ↔ b.1 = .ok ()) (hb : ∀ e, b.1 = .error e → Uncharged tracker s b.2) :
    Agree tracker c s (conclude c claims a) (conclude c claims b) := by
  obtain ⟨a, s₁⟩ := a
  obtain ⟨b, s₂⟩ := b
  obtain rfl : s₁ = s₂ := hstate
  cases b with
  | error e =>
      cases a with
      | ok u => exact absurd (hok.mp rfl) error_ne_ok
      | error e' =>
          refine ⟨fun claims' => ?_, rfl, fun _ _ => hb e rfl⟩
          exact ⟨fun h => absurd h denied_ne_ok, fun h => absurd h denied_ne_ok⟩
  | ok u =>
      cases a with
      | error e' => exact absurd (hok.mpr rfl) error_ne_ok
      | ok v =>
          refine ⟨fun _ => Iff.rfl, rfl, fun hnone hrefused => ?_⟩
          refine absurd ?_ (hrefused claims)
          simp only [conclude, decide?, hnone]

end Paths

/-- **Awaited enforcement is synchronous enforcement.** Whatever the token, the trust
configuration, the call, the tracker and its state: both return the same claims or both
refuse, and both leave the tracker in the same state, uncharged when they refuse. -/
theorem async_agrees (ed : SignatureCheck) (tracker : Option (Tracker σ)) (c : Call) (s : σ) :
    Agree tracker c s (asyncVerifyAndCheck ed tracker c s) (verifyAndCheck ed tracker c s) := by
  have hinner := verifyAndCheck_eq ed (tracker.map standIn) (innerCall c) {}
  rw [supports_standIn, Option.isSome_map] at hinner
  rcases hinner with ⟨⟨e, hasync⟩, hrefused⟩ | ⟨claims, amount, hv, hc, hasync⟩
  · -- refused against the stand-in, and so by the synchronous path
    obtain ⟨e', he'⟩ := denied_error c none e
    rw [asyncVerifyAndCheck, hasync]
    simp only [he']
    rcases verifyAndCheck_eq ed tracker c s with ⟨⟨e'', hsync⟩, -⟩ | ⟨claims, amount, hv, hc, -⟩
    · rw [hsync]
      exact .of_refused _ _
    · exact absurd hc (hrefused claims amount (verify_unrevoked.mp hv).1)
  · obtain ⟨parent, hp⟩ : ∃ parent, parentOf claims = .ok parent := by
      rcases parentOf_of_verify hv with ⟨-, h⟩ | ⟨_, p, -, -, h⟩
      · exact ⟨none, h⟩
      · exact ⟨some p, h⟩
    -- the stand-in captures the reservation and returns
    obtain ⟨r, hcaptured, hreserve⟩ : ∃ r,
        verifyAndCheck ed (tracker.map standIn) (innerCall c) {} = (.ok claims, r) ∧
          ((reserve? tracker claims r c.reserveTime s).2 = (reserved tracker claims
            (.scalar (.float (.finite false amount))) c.reserveTime s).2 ∧
          ((reserve? tracker claims r c.reserveTime s).1 = .ok () ↔ (reserved tracker claims
            (.scalar (.float (.finite false amount))) c.reserveTime s).1 = .ok ())) := by
      cases tracker with
      | none => exact ⟨{}, hasync, rfl, Iff.rfl⟩
      | some t =>
          obtain ⟨r, hr, hsame⟩ := reserve_captured hp t (.scalar (.float (.finite false amount)))
            c.reserveTime s
          refine ⟨r, ?_, hsame⟩
          have hinner : reserved ((some t).map standIn) claims (.scalar (.float (.finite false amount)))
              (innerCall c).reserveTime {} = (.ok (), r) := hr
          rw [hasync, hinner]
          rfl
    rw [asyncVerifyAndCheck, hcaptured]
    by_cases hrev : checkRevoked c claims = .ok ()
    · -- no link is revoked
      have hverify : verify ed c.verifyOptions c.token c.verifyTime c.parentTime = .ok claims := by
        refine verify_unrevoked.mpr ⟨hv, fun parent' hp' => ?_⟩
        obtain rfl := Except.ok.inj (hp.symm.trans hp')
        exact (checkRevoked_ok hp).mp hrev
      rcases verifyAndCheck_eq ed tracker c s with ⟨-, hrefused⟩ | ⟨claims', amount', hv', hc', hsync⟩
      · exact absurd hc (hrefused claims amount hverify)
      obtain rfl := Except.ok.inj (hverify.symm.trans hv')
      obtain rfl := Except.ok.inj (hc.symm.trans hc')
      rw [hsync]
      simp only [hrev]
      refine .of_conclude (a := reserve? tracker claims r c.reserveTime s) hreserve.1 hreserve.2 ?_
      intro e he
      cases tracker with
      | none => exact absurd he nofun
      | some t => exact uncharged_of_reserve (Prod.ext he rfl)
    · -- a revoked link: both refuse before the tracker is asked
      cases hcr : checkRevoked c claims with
      | ok u => exact absurd hcr hrev
      | error e =>
          obtain ⟨e', he'⟩ := denied_error c (some claims) e
          simp only [hcr, he']
          rcases verifyAndCheck_eq ed tracker c s with ⟨⟨e'', hsync⟩, -⟩ |
            ⟨claims', amount', hv', hc', -⟩
          · rw [hsync]
            exact .of_refused _ _
          · obtain ⟨hv'', hlinks⟩ := verify_unrevoked.mp hv'
            obtain rfl := Except.ok.inj (hv.symm.trans hv'')
            exact absurd ((checkRevoked_ok hp).mpr (hlinks parent hp)) hrev

end SwarmAuth.Python.Asyncio
