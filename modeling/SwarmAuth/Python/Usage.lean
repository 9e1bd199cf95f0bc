import SwarmAuth.Python.Enforcement
import SwarmAuth.Lib.Nearest
import SwarmAuth.Lib.Store

/-!
# The in-memory usage tracker

`UsageTracker` keeps a record per `jti` and drops records past their expiry whenever a
reservation is tried. Records are shared by every token of a `jti`, a parent's by all its
children; a record only grows while it lives, and lives as long as any token charged to
it can be charged again. This is why no purge hands out a fresh allowance, but for one end:
`exp + 3` is a float, and `2 ** 53 + 1` is rounded down to one.

## Main definitions

* `TokenUsage`, `State` — `_TokenUsage` and the tracker's dictionary.
* `checkAndRecordChain`, `tracker` — the reservation, and `UsageTracker` as a tracker.
* `Tracked` — what a token's record says about the charges to the token.
* `Kept` — no call purges the record of a token that can still be charged.
* `allowances_hold` — **then no run passes any token's limits**.
* `purged_early` — a run that does.
-/
namespace SwarmAuth.Python.UsageTracker

open Allowance (Charge Covers Charged Retains Admits Respects)

/-! ## The tracker -/

/-- `_TokenUsage`. -/
structure TokenUsage where
  callCount : ℕ := 0
  spentAmount : Decimal := ⟨0, 0⟩
  callTimestamps : List ℚ := []
  expiresAt : ℚ := 0
  deriving DecidableEq

/-- The records, by `jti`. -/
abbrev State := Units → Option TokenUsage

/-- No records. -/
def State.empty : State := fun _ => none

/-- `self._usage.get(jti, _TokenUsage())`. -/
def State.get (s : State) (jti : Units) : TokenUsage := (s jti).getD {}

/-- `_purge_expired_unlocked`. -/
def State.purgeExpired (s : State) (now : ℚ) : State := fun jti =>
  (s jti).filter fun usage => now < usage.expiresAt

/-- The checks on one token's record; they leave it unchanged. -/
def pendingUsage (s : State) (amount : Binary64) (now : ℚ) (claims : CapabilityClaims) :
    Outcome (CapabilityClaims × TokenUsage × List ℚ) := do
  let usage := s.get claims.jti
  let constraints := claims.constraints
  raiseIf (constraints.maxCalls.any fun n : ℤ => n < usage.callCount + 1)
    (constraintViolation [.text "Token call allowance exhausted"] "max_calls")
  raiseIf (constraints.maxAmountUsd.any fun d =>
      (limitDecimal d).value < (decimalSum usage.spentAmount amount).value)
    (constraintViolation [.text "Token budget exhausted"] "max_amount_usd")
  raiseIf (constraints.rateLimitPerMin.any fun n : ℤ =>
      n < (recentStamps usage.callTimestamps now).length + 1)
    (constraintViolation [.text "Token rate allowance exhausted"] "rate_limit_per_min")
  return (claims, usage, recentStamps usage.callTimestamps now)

/-- `float(claims.exp) + _USAGE_RETENTION_AFTER_EXP_SECONDS`; of claims it is finite. -/
def floatExpiry (exp : ℤ) : ℚ :=
  ((rounded exp).bind fun e => rounded (e + retentionAfterExpSeconds)).getD 0

/-- A record with one more call. -/
def charge (amount : Binary64) (now : ℚ) (exp : ℤ) (usage : TokenUsage) (recent : List ℚ) :
    TokenUsage where
  callCount := usage.callCount + 1
  spentAmount := decimalSum usage.spentAmount amount
  callTimestamps := recent ++ [now]
  expiresAt := max usage.expiresAt (floatExpiry exp)

/-- Charge the records that passed their checks. -/
def recordPending (amount : Binary64) (now : ℚ)
    (pending : List (CapabilityClaims × TokenUsage × List ℚ)) (s : State) : State :=
  Store.updateAll s (pending.map fun p => (p.1.jti, charge amount now p.1.exp p.2.1 p.2.2))

/-- The checks on the chain before its records are looked at. -/
def checkChain (chain : List CapabilityClaims) (now : ℚ) : Outcome Unit := do
  raiseIf (chain = [] ∨ ¬ (chain.map (·.jti)).Nodup)
    (constraintViolation [.text "Delegation token IDs must be distinct"] "max_calls")
  raiseIf (chain.any fun claims => claims.exp + retentionAfterExpSeconds ≤ now)
    (.of .tokenExpired [.text "Token expired before usage reservation"])

/-- `check_and_record_chain`, its clock read `now`. Expired records go even when a check on
a record then fails. -/
def checkAndRecordChain (chain : List CapabilityClaims) (amount : Value) (now : ℚ) (s : State) :
    Outcome Unit × State :=
  match (do let x ← validatedAmount amount; checkChain chain now; return x) with
  | .error e => (.error e, s)
  | .ok x =>
      match chain.mapM (pendingUsage (s.purgeExpired now) x now) with
      | .error e => (.error e, s.purgeExpired now)
      | .ok pending => (.ok (), recordPending x now pending (s.purgeExpired now))

/-- `UsageTracker`. -/
def tracker : Tracker State where
  checkAndRecord claims := checkAndRecordChain [claims]
  checkAndRecordChain := some checkAndRecordChain

/-- The tokens a reservation charges: parent and child when the parent has limits. -/
def reservedChain (claims : CapabilityClaims) : List CapabilityClaims :=
  match parentOf claims with
  | .ok (some parent) => if stateful parent ≠ [] then [parent, claims] else [claims]
  | _ => [claims]

/-! ## What a reservation does -/

/-- A record as its limits see it. -/
def TokenUsage.record (u : TokenUsage) : Allowance.Record :=
  ⟨u.callCount, u.spentAmount.value, u.callTimestamps⟩

theorem mem_reservedChain (claims : CapabilityClaims) : claims ∈ reservedChain claims := by
  unfold reservedChain
  split
  · split_ifs <;> simp
  · simp

theorem reserve_eq {claims : CapabilityClaims} {parent : Option CapabilityClaims}
    (hp : parentOf claims = .ok parent) (amount : Value) (now : ℚ) (s : State) :
    tracker.reserve claims amount now s = checkAndRecordChain (reservedChain claims) amount now s := by
  cases parent with
  | none => simp [Tracker.reserve, reservedChain, hp, tracker]
  | some parent =>
      by_cases hst : stateful parent = [] <;>
        simp [Tracker.reserve, reservedChain, hp, hst, tracker]

/-- The tracker charges every verified token that has limits. -/
theorem mem_reservedChain_of_stateful {claims T : CapabilityClaims} (hT : T ∈ verifiedChain claims)
    (hst : stateful T ≠ []) : T ∈ reservedChain claims := by
  unfold verifiedChain at hT
  split at hT
  · next parent hp =>
      rcases List.mem_cons.mp hT with rfl | hT
      · simp [reservedChain, hp, hst]
      · rw [List.mem_singleton.mp hT]
        exact mem_reservedChain claims
  · rw [List.mem_singleton.mp hT]
    exact mem_reservedChain claims

/-- The checks on a record are those of its token's allowance. -/
theorem pendingUsage_ok {s : State} {x : Binary64} {now : ℚ} {claims : CapabilityClaims}
    {p : CapabilityClaims × TokenUsage × List ℚ} :
    pendingUsage s x now claims = .ok p ↔
      Admits 60 (allowance claims) (chargeOf x now) (s.get claims.jti).record
          (decimalSum (s.get claims.jti).spentAmount x).value ∧
        p = (claims, s.get claims.jti, recentStamps (s.get claims.jti).callTimestamps now) := by
  rw [allowance, ← checks_iff_admits]
  simp only [pendingUsage, raiseIf_bind_eq_ok, pure_eq_ok, and_assoc]
  rw [eq_comm (b := p)]
  rfl

theorem checkChain_ok {chain : List CapabilityClaims} {now : ℚ} :
    checkChain chain now = .ok () ↔ chain ≠ [] ∧ (chain.map (·.jti)).Nodup ∧
      ∀ claims ∈ chain, now < claims.exp + retentionAfterExpSeconds := by
  simp only [checkChain, raiseIf_bind_eq_ok, raiseIf_eq_ok, not_or, not_not, List.any_eq_true,
    decide_eq_true_eq, not_exists, not_and, not_le, and_assoc]

/-- What a returned reservation establishes, and the state it leaves. -/
structure Reserved (chain : List CapabilityClaims) (x : Binary64) (now : ℚ) (s s' : State) : Prop where
  checked : checkChain chain now = .ok ()
  admits : ∀ claims ∈ chain,
    Admits 60 (allowance claims) (chargeOf x now) ((s.purgeExpired now).get claims.jti).record
      (decimalSum ((s.purgeExpired now).get claims.jti).spentAmount x).value
  charged : ∀ claims ∈ chain, s' claims.jti = some (charge x now claims.exp
    ((s.purgeExpired now).get claims.jti)
    (recentStamps ((s.purgeExpired now).get claims.jti).callTimestamps now))
  same : ∀ jti, jti ∉ chain.map (·.jti) → s' jti = s.purgeExpired now jti

theorem Reserved.distinct {chain : List CapabilityClaims} {x : Binary64} {now : ℚ} {s s' : State}
    (h : Reserved chain x now s s') : (chain.map (·.jti)).Nodup :=
  (checkChain_ok.mp h.checked).2.1

theorem Reserved.live {chain : List CapabilityClaims} {x : Binary64} {now : ℚ} {s s' : State}
    (h : Reserved chain x now s s') : ∀ claims ∈ chain, now < claims.exp + retentionAfterExpSeconds :=
  (checkChain_ok.mp h.checked).2.2

/-- **A reservation charges every record of its chain or none**; a refused one changes at
most what has expired. -/
theorem checkAndRecordChain_cases {chain : List CapabilityClaims} {amount : Value} {now : ℚ}
    {s s' : State} {r : Outcome Unit} (h : checkAndRecordChain chain amount now s = (r, s')) :
    (r ≠ .ok () ∧ (s' = s ∨ checkChain chain now = .ok () ∧ s' = s.purgeExpired now)) ∨
      ∃ x, r = .ok () ∧ validatedAmount amount = .ok x ∧ Reserved chain x now s s' := by
  rw [checkAndRecordChain] at h
  split at h
  · obtain ⟨rfl, rfl⟩ := Prod.mk.inj h
    exact Or.inl ⟨error_ne_ok, Or.inl rfl⟩
  · next x hx =>
      obtain ⟨x', hvalid, hx⟩ := bind_eq_ok.mp hx
      obtain ⟨u, hchain, hx⟩ := bind_eq_ok.mp hx
      obtain rfl := pure_eq_ok.mp hx
      obtain ⟨-, hnodup, -⟩ := checkChain_ok.mp hchain
      split at h
      · obtain ⟨rfl, rfl⟩ := Prod.mk.inj h
        exact Or.inl ⟨error_ne_ok, Or.inr ⟨hchain, rfl⟩⟩
      · next pending hpending =>
          obtain ⟨rfl, rfl⟩ := Prod.mk.inj h
          obtain ⟨hadmits, hmap⟩ := (mapM_eq_ok fun _ _ _ => pendingUsage_ok).mp hpending
          have hjtis : (pending.map fun p => (p.1.jti, charge x' now p.1.exp p.2.1 p.2.2)).map
              Prod.fst = chain.map (·.jti) := by
            rw [hmap, List.map_map, List.map_map]
            rfl
          refine Or.inr ⟨x', rfl, hvalid, hchain, hadmits, ?_, ?_⟩
          · intro claims hmem
            apply Store.updateAll_of_mem _ (by rw [hjtis]; exact hnodup) (e := (claims.jti, _))
            rw [hmap, List.map_map]
            exact List.mem_map_of_mem hmem
          · intro jti hjti
            rw [← hjtis] at hjti
            exact Store.updateAll_of_not_mem _ _ hjti

/-! ## When a record runs out -/

/-- **The end of a record** is three seconds past the token's `exp`, rounded down once. -/
theorem floatExpiry_eq {n : ℤ} (hn : |n| ≤ maxSafe) :
    floatExpiry n = if n = 2 ^ 53 - 2 then 2 ^ 53 else (n : ℚ) + retentionAfterExpSeconds := by
  have hsafe : |n| ≤ 2 ^ 53 := hn.trans (by decide)
  have hthree : (retentionAfterExpSeconds : ℚ) = (3 : ℤ) := rfl
  rw [floatExpiry, rounded, nearestTo_intCast hsafe, Option.bind_some, hthree, rounded,
    ← Int.cast_add]
  rw [maxSafe, abs_le] at hn
  by_cases hround : n = 2 ^ 53 - 2
  · subst hround
    rw [if_pos rfl, show (2 ^ 53 - 2 + 3 : ℤ) = 2 ^ 53 + 1 by norm_num, nearestTo_beyond.1]
    rfl
  · rw [if_neg hround]
    by_cases hlast : n = 2 ^ 53 - 1
    · subst hlast
      decide +kernel
    · rw [nearestTo_intCast (abs_le.mpr ⟨by omega, by omega⟩), Option.getD_some]

/-! ## A token's record -/

section Records
variable {T : CapabilityClaims} {now now' : ℚ} {s s' : State} {h : List Charge}

/-- While the token can be charged, its record accounts for the charges `h` to it. -/
structure Tracked (T : CapabilityClaims) (now : ℚ) (s : State) (h : List Charge) : Prop where
  fine : ∀ jti usage, s jti = some usage → -340 ≤ usage.spentAmount.exp
  respects : Respects 60 (allowance T) h
  covers : now < T.exp + retentionAfterExpSeconds →
    Covers 60 exactBelow (allowance T) now (s.get T.jti).record h
  retained : now < T.exp + retentionAfterExpSeconds → h ≠ [] →
    ∃ usage, s T.jti = some usage ∧ floatExpiry T.exp ≤ usage.expiresAt

theorem fine_get (hfine : ∀ jti usage, s jti = some usage → -340 ≤ usage.spentAmount.exp)
    (jti : Units) : -340 ≤ (s.get jti).spentAmount.exp := by
  rw [State.get]
  cases hs : s jti with
  | none => decide
  | some usage => exact hfine jti usage hs

theorem get_of_some {jti : Units} {usage : TokenUsage} (hs : s jti = some usage) :
    s.get jti = usage := by
  rw [State.get, hs, Option.getD_some]

theorem purgeExpired_some {jti : Units} {usage : TokenUsage}
    (hs : s.purgeExpired now jti = some usage) : s jti = some usage :=
  (Option.filter_eq_some_iff.mp hs).1

theorem purgeExpired_of_some {jti : Units} {usage : TokenUsage}
    (hs : s jti = some usage) (hlive : now < usage.expiresAt) : s.purgeExpired now jti = some usage := by
  rw [State.purgeExpired, hs, Option.filter_some, if_pos (by simpa using hlive)]

/-- Reservations keep exponents. -/
theorem Reserved.fine {chain : List CapabilityClaims} {x : Binary64}
    (hfine : ∀ jti usage, s jti = some usage → -340 ≤ usage.spentAmount.exp)
    (hres : Reserved chain x now s s') :
    ∀ jti usage, s' jti = some usage → -340 ≤ usage.spentAmount.exp := by
  have hpurged : ∀ jti usage, s.purgeExpired now jti = some usage → -340 ≤ usage.spentAmount.exp :=
    fun jti usage hs => hfine jti usage (purgeExpired_some hs)
  intro jti usage hs
  by_cases hmem : jti ∈ chain.map (·.jti)
  · obtain ⟨claims, hclaims, rfl⟩ := List.mem_map.mp hmem
    rw [hres.charged claims hclaims, Option.some.injEq] at hs
    rw [← hs]
    exact le_exp_decimalSum (fine_get hpurged claims.jti) x
  · rw [hres.same jti hmem] at hs
    exact hpurged jti usage hs

theorem Tracked.init (T : CapabilityClaims) (now : ℚ) : Tracked T now State.empty [] where
  fine _ _ hs := nomatch hs
  respects := Respects.nil (allowance_nonNeg T)
  covers _ := Covers.nil (Decimal.value_nonneg _)
  retained _ hne := absurd rfl hne

theorem Tracked.later (htr : Tracked T now s h) (hnow : now ≤ now') : Tracked T now' s h where
  fine := htr.fine
  respects := htr.respects
  covers hlive := (htr.covers (hnow.trans_lt hlive)).retain hnow Retains.refl
  retained hlive := htr.retained (hnow.trans_lt hlive)

/-- A purge now does not take the token's record. -/
def Spared (T : CapabilityClaims) (now : ℚ) (s : State) (h : List Charge) : Prop :=
  T.exp = 2 ^ 53 - 2 → h ≠ [] → 2 ^ 53 ≤ now → now < 2 ^ 53 + 1 →
    ∀ usage, s T.jti = some usage → now < usage.expiresAt

/-- **The record of a token that can still be charged** runs out in one second only. -/
theorem Tracked.unexpired (htr : Tracked T now s h) (hlive : now < T.exp + retentionAfterExpSeconds)
    (hne : h ≠ []) (hspared : Spared T now s h) : s.purgeExpired now T.jti = s T.jti := by
  obtain ⟨usage, hs, hexp⟩ := htr.retained hlive hne
  rw [hs]
  apply purgeExpired_of_some hs
  rw [floatExpiry_eq T.abs_exp_le] at hexp
  by_cases hround : T.exp = 2 ^ 53 - 2
  · rw [if_pos hround] at hexp
    by_cases hearly : now < 2 ^ 53
    · exact hearly.trans_le hexp
    · refine hspared hround hne (not_lt.mp hearly) ?_ usage hs
      rw [hround] at hlive
      exact hlive.trans_eq (by decide +kernel)
  · rw [if_neg hround] at hexp
    exact hlive.trans_le hexp

theorem Tracked.purge (htr : Tracked T now s h) (hspared : Spared T now s h) :
    Tracked T now (s.purgeExpired now) h := by
  refine ⟨?_, htr.respects, ?_, ?_⟩
  · intro jti usage hs
    exact htr.fine jti usage (purgeExpired_some hs)
  · intro hlive
    by_cases hne : h = []
    · rw [hne]
      exact Covers.nil (Decimal.value_nonneg _)
    · rw [State.get, htr.unexpired hlive hne hspared]
      exact htr.covers hlive
  · intro hlive hne
    rw [htr.unexpired hlive hne hspared]
    exact htr.retained hlive hne

/-- A charged record has the charge on it. -/
theorem charged_charge (l : Allowance.Limits) (x : Binary64) (now : ℚ) (exp : ℤ) {usage : TokenUsage}
    (hfine : -340 ≤ usage.spentAmount.exp) :
    Charged 60 exactBelow l (chargeOf x now) usage.record
      (charge x now exp usage (recentStamps usage.callTimestamps now)).record where
  calls := le_rfl
  spent := min_le_value_decimalSum hfine x
  stamps _ t ht := by
    have hkeep : (recentStamps usage.callTimestamps now).countP (fun s => t ≤ s) =
        usage.callTimestamps.countP fun s => t ≤ s := countP_recentStamps ht
    simp only [TokenUsage.record, charge, List.countP_append, hkeep, List.countP_singleton,
      decide_eq_true_eq]
    exact le_rfl

variable {chain : List CapabilityClaims} {x : Binary64}

/-- **A reservation keeps the token's record in step**, whether the token is charged (`mine`)
or only another of its `jti`. -/
theorem Tracked.reserve (htr : Tracked T now s h) (hspared : Spared T now s h)
    (hres : Reserved chain x now s s') (mine : Bool) (hmine : mine = true → T ∈ chain) :
    Tracked T now s' (h ++ if mine then [chargeOf x now] else []) := by
  have hpurged := htr.purge hspared
  have hfine := fine_get hpurged.fine
  have hcharged := fun claims : CapabilityClaims =>
    charged_charge (allowance T) x now claims.exp (hfine claims.jti)
  have hnonneg := chargeOf_nonneg x now
  refine ⟨hres.fine htr.fine, ?_, ?_, ?_⟩
  · cases mine with
    | false => simpa using hpurged.respects
    | true =>
        have hT := hmine rfl
        exact hpurged.respects.snoc (hpurged.covers (hres.live T hT)) le_rfl (hcharged T)
          (hres.admits T hT) (fun m => limit_lt_exactBelow) hnonneg
  · intro hlive
    have hcov := hpurged.covers hlive
    cases mine with
    | true =>
        rw [get_of_some (hres.charged T (hmine rfl))]
        exact hcov.snoc le_rfl (hcharged T) hnonneg
    | false =>
        rw [if_neg Bool.false_ne_true, List.append_nil]
        by_cases hmem : T.jti ∈ chain.map (·.jti)
        · obtain ⟨claims, hclaims, hjti⟩ := List.mem_map.mp hmem
          rw [← hjti, get_of_some (hres.charged claims hclaims)]
          rw [← hjti] at hcov
          exact hcov.retain le_rfl ((hcharged claims).retains hnonneg)
        · rw [State.get, hres.same T.jti hmem]
          exact hcov
  · intro hlive hne
    cases mine with
    | true => exact ⟨_, hres.charged T (hmine rfl), le_max_right _ _⟩
    | false =>
        rw [if_neg Bool.false_ne_true, List.append_nil] at hne
        obtain ⟨usage, hold, hexp⟩ := hpurged.retained hlive hne
        by_cases hmem : T.jti ∈ chain.map (·.jti)
        · obtain ⟨claims, hclaims, hjti⟩ := List.mem_map.mp hmem
          rw [← hjti] at hold
          rw [← hjti]
          refine ⟨_, hres.charged claims hclaims, ?_⟩
          rw [get_of_some hold]
          exact hexp.trans (le_max_left _ _)
        · rw [hres.same T.jti hmem]
          exact ⟨usage, hold, hexp⟩

end Records

/-! ## Runs -/

section Runs
variable {ed : SignatureCheck} {T : CapabilityClaims} {now : ℚ} {s : State} {log : List Accepted}

/-- The call does not purge the record of a token that has been charged and can be again. -/
def Kept (ed : SignatureCheck) (T : CapabilityClaims) (log : List Accepted) (s : State) (c : Call) :
    Prop :=
  ∀ claims x, verify ed c.verifyOptions c.token c.verifyTime c.parentTime = .ok claims →
    checkCall c false true claims = .ok x →
    checkChain (reservedChain claims) c.reserveTime = .ok () →
    Spared T c.reserveTime s (chargesTo T log)

/-- A call keeps the token's record in step with the charges of the accepted calls. -/
theorem Tracked.callStep (hst : stateful T ≠ []) (htr : Tracked T now s (chargesTo T log))
    (c : Call) (hkept : Kept ed T log s c) (hnow : now ≤ c.reserveTime) :
    Tracked T c.reserveTime (callStep ed (some tracker) s c).2
      (chargesTo T (log ++ (Python.callStep ed (some tracker) s c).1.toList)) := by
  have hlater := htr.later hnow
  rcases callStep_cases ed tracker s c with
    hstep | ⟨claims, amount, r, s', hv, hcheck, hreserve, hstep⟩
  · rw [hstep]
    simpa using hlater
  cases hp : parentOf claims with
  | error e =>
      rw [Tracker.reserve, hp] at hreserve
      obtain ⟨rfl, rfl⟩ := Prod.mk.inj hreserve
      rcases hstep with hstep | ⟨hr, -⟩
      · rw [hstep]
        simpa using hlater
      · exact absurd hr error_ne_ok
  | ok parent =>
      rw [reserve_eq hp] at hreserve
      have hspared := hkept claims amount hv hcheck
      rcases checkAndRecordChain_cases hreserve with ⟨hne, hs'⟩ | ⟨x, -, hx, hres⟩
      · rcases hstep with hstep | ⟨hr, -⟩
        · rw [hstep]
          rcases hs' with rfl | ⟨hchecked, rfl⟩
          · simpa using hlater
          · simpa using hlater.purge (hspared hchecked)
        · exact absurd hr hne
      obtain rfl := Except.ok.inj (hx.symm.trans (validatedAmount_float amount))
      rcases hstep with hstep | ⟨-, hstep⟩
      · -- reserved and then refused, by the decision callback
        rw [hstep]
        simpa using hlater.reserve (hspared hres.checked) hres false nofun
      · -- accepted: the token is charged when it is in the verified chain
        rw [hstep, Option.toList_some, chargesTo_append, chargesTo_singleton T (checkCall_ok hcheck).2.2.2]
        apply hlater.reserve (hspared hres.checked) hres
        intro hmine
        exact mem_reservedChain_of_stateful (of_decide_eq_true hmine) hst

/-- **Token allowances hold while no call purges the record of a token that has been charged
and can be again**: the accepted calls of the run whose verified chain contains the token
respect its call, amount and rate limits. -/
theorem allowances_hold (ed : SignatureCheck) (calls : List Call)
    (hclock : (calls.map Call.reserveTime).Pairwise (· ≤ ·)) (T : CapabilityClaims)
    (hrun : stateful T ≠ [] → Runs.AlongLog (callStep ed (some tracker)) (Kept ed T) [] .empty calls) :
    Respects 60 (allowance T) (chargesTo T (accepted ed (some tracker) .empty calls)) := by
  by_cases hst : stateful T = []
  · rw [allowance_of_stateless hst]
    exact Respects.of_none _
  · have htr := Runs.log_invariant_of_along (fun now s log => Tracked T now s (chargesTo T log))
      (fun _ _ _ c htr hkept hnow => htr.callStep hst c hkept hnow) (Tracked.init T) calls (hrun hst)
      hclock
    exact htr.respects

set_option maxRecDepth 100000 in
theorem allowances_hold_sample :
    Respects 60 (allowance sampleOnce) (chargesTo sampleOnce
      (accepted sampleCheck (some tracker) .empty
        [sampleCall sampleOnce 1005, sampleCall sampleOnce 1006])) ∧
    (accepted sampleCheck (some tracker) .empty
      [sampleCall sampleOnce 1005, sampleCall sampleOnce 1006]).map (·.call.reserveTime) = [1005] := by
  have hexp : sampleOnce.exp ≠ 2 ^ 53 - 2 := by decide
  have hkept : ∀ log s c, Kept sampleCheck sampleOnce log s c :=
    fun _ _ _ _ _ _ _ _ hround => absurd hround hexp
  exact ⟨allowances_hold sampleCheck [sampleCall sampleOnce 1005, sampleCall sampleOnce 1006]
    (by decide +kernel) sampleOnce fun _ => ⟨hkept _ _ _, hkept _ _ _, trivial⟩, by decide +kernel⟩

/-! ### A record that is purged early -/

/-- A token for one call whose `exp` and three seconds make no float. -/
def longOnce : CapabilityClaims :=
  ⟨{ sampleOnce.toClaimFields with iat := 2 ^ 53 - 12, exp := 2 ^ 53 - 2 }, by decide⟩

/-- The token before its expiry, and two seconds after it. -/
def longCalls : List Call := [sampleCall longOnce (2 ^ 53 - 4), sampleCall longOnce (2 ^ 53)]

set_option maxRecDepth 100000 in
/-- **Its record is purged a second too early**: the token for one call is accepted twice. -/
theorem purged_early : (longCalls.map Call.reserveTime).Pairwise (· ≤ ·) ∧
    ¬ Respects 60 (allowance longOnce) (chargesTo longOnce
      (accepted sampleCheck (some tracker) .empty longCalls)) := by
  have htwice : (chargesTo longOnce (accepted sampleCheck (some tracker) .empty longCalls)).length =
      2 := by
    decide +kernel
  refine ⟨by decide +kernel, ?_⟩
  intro hres
  have hone := hres.calls 1 rfl
  rw [htwice] at hone
  exact absurd hone (by decide)

end Runs
end SwarmAuth.Python.UsageTracker
