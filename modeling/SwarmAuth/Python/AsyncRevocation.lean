import SwarmAuth.Python.Asyncio
import SwarmAuth.Python.Revocation
import SwarmAuth.Python.Usage
import Mathlib.Tactic.Linarith

/-!
# Awaited revocation

`async_verify_and_check` judges the lifetimes first and awaits the revocation store
afterwards. Other tasks use the store in between, and the store forgets a token three
seconds past its expiry. A tracker that refuses expired chains closes the gap; without
one, a token whose revocation was forgotten during the await is returned.

## Main definitions

* `Ask`, `Call.askedOf` — the store when it is asked, and a call that asks it.
* `Ordered` — the clock reads of a call and of the store do not decrease.
* `RefusesLate` — a tracker that refuses a chain the store may have forgotten.
* `revoked_refused_iff` — when a revoked token is refused.
-/
namespace SwarmAuth.Python.Asyncio

open RevocationStore

variable {σ : Type}

/-! ## A call and a store -/

/-- One `is_revoked`: the calls the store completed before, and its clock read. -/
structure Ask where
  before : List Timed
  time : ℚ

/-- What the store answers. -/
def Ask.answer (a : Ask) (jti : Units) : Bool := ((after a.before).isRevoked jti a.time).1

/-- The call, with the store asked about each token id in this way. -/
def askedOf (c : Call) (asked : Units → Ask) : Call :=
  { c with revoked := fun jti => (asked jti).answer jti }

/-- The calls of `history` are complete when the call begins; from then on its clock reads
and the store's do not decrease. -/
structure Ordered (c : Call) (history : List Timed) (asked : Units → Ask) : Prop where
  completed : ∀ jti, ∃ during, (asked jti).before = history ++ during
  store : ∀ jti, (0 :: ((asked jti).before.map Timed.time ++ [(asked jti).time])).Pairwise (· ≤ ·)
  began : ∀ r ∈ history, r.time ≤ c.verifyTime
  verified : c.verifyTime ≤ c.parentTime
  awaited : ∀ jti, c.parentTime ≤ (asked jti).time
  reserved : ∀ jti, (asked jti).time ≤ c.reserveTime

/-- Some link of the chain was revoked, with its own expiry, before the call began. -/
def ChainRevoked (history : List Timed) (claims : CapabilityClaims) : Prop :=
  ∃ link ∈ verifiedChain claims, Revoked history link.jti link.exp

/-- The store is asked about some link before a revocation of it is forgotten. -/
def AskedInTime (asked : Units → Ask) (claims : CapabilityClaims) : Prop :=
  ∃ link ∈ verifiedChain claims, ∃ expiresAt : ℤ,
    Revoked (asked link.jti).before link.jti expiresAt ∧ (asked link.jti).time < expiresAt + 3

/-- A tracker that reserves no chain with a link three seconds past its expiry. -/
structure RefusesLate (t : Tracker σ) : Prop where
  single : ∀ claims amount now s, (t.checkAndRecord claims amount now s).1 = .ok () →
    now < claims.exp + 3
  chain : ∀ record, t.checkAndRecordChain = some record → ∀ chain amount now s,
    (record chain amount now s).1 = .ok () → ∀ claims ∈ chain, now < claims.exp + 3

/-- `UsageTracker` refuses late chains. -/
theorem refusesLate_usageTracker : RefusesLate UsageTracker.tracker := by
  have hchain : ∀ chain amount now s, (UsageTracker.checkAndRecordChain chain amount now s).1 =
      .ok () → ∀ claims ∈ chain, now < claims.exp + 3 := by
    intro chain amount now s hok claims hmem
    rcases UsageTracker.checkAndRecordChain_cases (Prod.ext hok rfl :
      UsageTracker.checkAndRecordChain chain amount now s = (.ok (), _)) with ⟨hne, -⟩ |
      ⟨x, -, -, hres⟩
    · exact absurd rfl hne
    · exact hres.live claims hmem
  refine ⟨fun claims amount now s hok => hchain [claims] amount now s hok claims ?_, ?_⟩
  · exact List.mem_singleton_self claims
  · intro record hrecord
    obtain rfl := Option.some.inj hrecord
    exact hchain

section Call
variable {ed : SignatureCheck} {tracker : Option (Tracker σ)} {c : Call} {s : σ}
  {claims : CapabilityClaims}

/-- The call returns these claims if no link is reported revoked. -/
structure Passes (ed : SignatureCheck) (tracker : Option (Tracker σ)) (c : Call) (s : σ)
    (claims : CapabilityClaims) : Prop where
  verifies : verify ed { c.verifyOptions with revoked := fun _ => false } c.token c.verifyTime
    c.parentTime = .ok claims
  charges : ∃ amount, checkCall c (tracker.any Tracker.supportsSharedBudgets) tracker.isSome
      claims = .ok amount ∧
    (reserved tracker claims (.scalar (.float (.finite false amount))) c.reserveTime s).1 = .ok ()
  reports : decide? c ⟨"allowed", none, some claims.iss, some claims.sub, c.requiredCapability,
    some claims.jti⟩ (.ok claims) = .ok claims

/-- The links of a verified token. -/
theorem mem_verifiedChain {o : VerifyOptions} {token : Units} {time parentTime : ℚ}
    (h : verify ed o token time parentTime = .ok claims) :
    ∃ parent, parentOf claims = .ok parent ∧ verifiedChain claims = parent.toList ++ [claims] ∧
      ∀ link ∈ verifiedChain claims, claims.exp ≤ link.exp := by
  rcases parentOf_of_verify h with ⟨-, hnone⟩ | ⟨prf, parent, hprf, hcore, hsome⟩
  · refine ⟨none, hnone, by rw [verifiedChain, hnone]; rfl, ?_⟩
    rw [verifiedChain, hnone]
    intro link hlink
    rw [List.mem_singleton.mp hlink]
  · refine ⟨some parent, hsome, by rw [verifiedChain, hsome]; rfl, ?_⟩
    obtain ⟨p, -, hpcore, hatt⟩ := (verify_ok.mp h).2.2.2.2 prf hprf
    obtain rfl := Except.ok.inj (hcore.symm.trans hpcore)
    rw [verifiedChain, hsome]
    intro link hlink
    rcases List.mem_cons.mp hlink with rfl | hlink
    · exact hatt.exp_le
    · rw [List.mem_singleton.mp hlink]

/-- **What an awaited call returns**: claims that pass, with no link reported revoked. -/
theorem async_ok : (asyncVerifyAndCheck ed tracker c s).1 = .ok claims ↔
    Passes ed tracker c s claims ∧ ∀ link ∈ verifiedChain claims, c.revoked link.jti = false := by
  have hsync : (asyncVerifyAndCheck ed tracker c s).1 = .ok claims ↔
      (verifyAndCheck ed tracker c s).1 = .ok claims :=
    (async_agrees ed tracker c s).returns claims
  rw [hsync]
  have hverify : ∀ claims', verify ed c.verifyOptions c.token c.verifyTime c.parentTime =
      .ok claims' ↔ verify ed { c.verifyOptions with revoked := fun _ => false } c.token
        c.verifyTime c.parentTime = .ok claims' ∧
          ∀ link ∈ verifiedChain claims', c.revoked link.jti = false := by
    intro claims'
    rw [verify_unrevoked]
    refine and_congr_right fun hv => ?_
    obtain ⟨parent, hp, hlinks, -⟩ := mem_verifiedChain hv
    rw [hlinks]
    refine ⟨fun h => h parent hp, fun h parent' hp' => ?_⟩
    obtain rfl := Except.ok.inj (hp.symm.trans hp')
    exact h
  rcases verifyAndCheck_eq ed tracker c s with ⟨⟨e, he⟩, hrefused⟩ |
    ⟨claims', amount, hv, hc, hend⟩
  · rw [he]
    refine iff_of_false error_ne_ok ?_
    intro h
    obtain ⟨⟨hv, ⟨amount, hc, -⟩, -⟩, hlinks⟩ := h
    exact hrefused claims amount ((hverify claims).mpr ⟨hv, hlinks⟩) hc
  · rw [hend]
    constructor
    · intro h
      cases hr : reserved tracker claims' (.scalar (.float (.finite false amount)))
        c.reserveTime s with
      | mk r s' =>
          rw [hr] at h
          cases r with
          | error e => exact absurd h denied_ne_ok
          | ok u =>
              simp only [conclude] at h
              have hclaims : claims' = claims := by
                rw [decide?] at h
                cases hcb : c.onDecision with
                | none => rw [hcb] at h; exact Except.ok.inj h
                | some report =>
                    rw [hcb] at h
                    obtain ⟨-, -, heq⟩ := bind_eq_ok.mp h
                    exact Except.ok.inj heq
              subst hclaims
              obtain ⟨hv', hlinks⟩ := (hverify claims').mp hv
              exact ⟨⟨hv', ⟨amount, hc, by rw [hr]⟩, h⟩, hlinks⟩
    · intro h
      obtain ⟨⟨hv', ⟨amount', hc', hr⟩, hevent⟩, hlinks⟩ := h
      obtain rfl := Except.ok.inj (hv.symm.trans ((hverify claims).mpr ⟨hv', hlinks⟩))
      obtain rfl := Except.ok.inj (hc.symm.trans hc')
      cases hres : reserved tracker claims' (.scalar (.float (.finite false amount)))
        c.reserveTime s with
      | mk r s' =>
          rw [hres] at hr
          obtain rfl : r = .ok () := hr
          exact hevent

/-- A reservation that a tracker made is not late for the token. -/
theorem lt_of_reserved {t : Tracker σ} (ht : RefusesLate t) {amount : Value} {now : ℚ}
    (h : (t.reserve claims amount now s).1 = .ok ()) : now < claims.exp + 3 := by
  rw [Tracker.reserve] at h
  split at h
  · exact absurd h error_ne_ok
  · exact ht.single claims amount now s h
  · split_ifs at h
    · split at h
      · next record hrecord => exact ht.chain record hrecord _ _ _ _ h claims (by simp)
      · exact absurd h error_ne_ok
    · exact ht.single claims amount now s h

/-! ## When a revoked token is refused -/

variable {history : List Timed} {asked : Units → Ask}

/-- What the store reports, asked during an ordered call. -/
theorem answer_iff (hreads : Ordered c history asked) (jti : Units) :
    (asked jti).answer jti = true ↔ ∃ expiresAt : ℤ, Revoked (asked jti).before jti expiresAt ∧
      (asked jti).time < expiresAt + 3 := isRevoked_iff (hreads.store jti) jti

theorem passes_askedOf : Passes ed tracker (askedOf c asked) s claims ↔
    Passes ed tracker c s claims :=
  ⟨fun h => ⟨h.verifies, h.charges, h.reports⟩, fun h => ⟨h.verifies, h.charges, h.reports⟩⟩

theorem askedInTime_iff (hreads : Ordered c history asked) : AskedInTime asked claims ↔
    ¬ ∀ link ∈ verifiedChain claims, (askedOf c asked).revoked link.jti = false := by
  simp only [AskedInTime, askedOf, not_forall, Bool.not_eq_false, answer_iff hreads, exists_prop]

/-- **A revoked token is refused** by an awaited call exactly when it would be refused
without revocation, or the store is asked in time; and always with a tracker that refuses
late chains. -/
theorem revoked_refused_iff (ed : SignatureCheck) (tracker : Option (Tracker σ)) (c : Call) (s : σ)
    (history : List Timed) (asked : Units → Ask) (hreads : Ordered c history asked) :
    ((∀ claims, ChainRevoked history claims →
        (asyncVerifyAndCheck ed tracker (askedOf c asked) s).1 ≠ .ok claims) ↔
      ∀ claims, Passes ed tracker c s claims → ChainRevoked history claims →
        AskedInTime asked claims) ∧
    (∀ t, tracker = some t → RefusesLate t → ∀ claims, ChainRevoked history claims →
      (asyncVerifyAndCheck ed tracker (askedOf c asked) s).1 ≠ .ok claims) := by
  have hiff : ∀ claims, (asyncVerifyAndCheck ed tracker (askedOf c asked) s).1 ≠ .ok claims ↔
      (Passes ed tracker c s claims → AskedInTime asked claims) := by
    intro claims
    rw [Ne, async_ok, passes_askedOf, not_and, askedInTime_iff hreads]
  refine ⟨?_, ?_⟩
  · constructor
    · exact fun h claims hpass hrev => (hiff claims).mp (h claims hrev) hpass
    · exact fun h claims hrev => (hiff claims).mpr fun hpass => h claims hpass hrev
  · intro t ht hlate claims hrev
    rw [hiff]
    intro hpass
    obtain ⟨link, hlink, hrevoked⟩ := hrev
    obtain ⟨-, -, -, hexp⟩ := mem_verifiedChain hpass.verifies
    obtain ⟨amount, -, hres⟩ := hpass.charges
    rw [ht] at hres
    -- the reservation comes after the answer and before three seconds past the expiry
    have hlt : c.reserveTime < claims.exp + 3 := lt_of_reserved hlate hres
    have hexp' : (claims.exp : ℚ) ≤ link.exp := by exact_mod_cast hexp link hlink
    refine ⟨link, hlink, link.exp, ?_, by linarith [hreads.reserved link.jti]⟩
    obtain ⟨during, hbefore⟩ := hreads.completed link.jti
    obtain ⟨r, hr, hreq⟩ := hrevoked
    rw [hbefore]
    exact ⟨r, List.mem_append_left _ hr, hreq⟩

end Call

/-! ### An answer that comes too late -/

/-- A call in the last tenth of a second of a token's lifetime. -/
def lateCall : Call :=
  { token := sampleToken sampleClaims, keyRegistry := some sampleRegistry,
    verifyTime := 10129 / 10, parentTime := 10129 / 10, reserveTime := 1013 }

/-- The token was revoked before the call. -/
def lateHistory : List Timed := [⟨.revoke "j1" 1010, 1005⟩]

/-- The store is asked a tenth of a second later. -/
def lateAsk (_ : Units) : Ask := ⟨lateHistory, 1013⟩

theorem ordered_late : Ordered lateCall lateHistory lateAsk where
  completed _ := ⟨[], rfl⟩
  store _ := by
    have hstore : ((0 : ℚ) :: (lateHistory.map Timed.time ++ [1013])).Pairwise (· ≤ ·) := by
      decide +kernel
    exact hstore
  began := by decide +kernel
  verified := le_rfl
  awaited _ := by
    have hawaited : lateCall.parentTime ≤ 1013 := by decide +kernel
    exact hawaited
  reserved _ := le_rfl

theorem chainRevoked_late : ChainRevoked lateHistory sampleClaims :=
  ⟨sampleClaims, List.mem_singleton_self _, ⟨.revoke "j1" 1010, 1005⟩, List.mem_singleton_self _,
    rfl⟩

set_option maxRecDepth 100000 in
/-- **A revoked token is returned** when the answer comes three seconds past its expiry. -/
theorem revoked_token_returned : Ordered lateCall lateHistory lateAsk ∧
    ChainRevoked lateHistory sampleClaims ∧
    (asyncVerifyAndCheck sampleCheck (none : Option (Tracker Unit)) (askedOf lateCall lateAsk)
      ()).1 = .ok sampleClaims :=
  ⟨ordered_late, chainRevoked_late, by decide +kernel⟩

theorem revoked_refused_iff_sample :
    (asyncVerifyAndCheck sampleCheck (some UsageTracker.tracker) (askedOf lateCall lateAsk)
      .empty).1 ≠ .ok sampleClaims :=
  (revoked_refused_iff sampleCheck (some UsageTracker.tracker) lateCall .empty lateHistory lateAsk
    ordered_late).2 _ rfl refusesLate_usageTracker sampleClaims chainRevoked_late

end SwarmAuth.Python.Asyncio
