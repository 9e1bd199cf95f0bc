import SwarmAuth.Lib.Deadlines
import SwarmAuth.Lib.Runs
import SwarmAuth.Python.Verify

/-!
# Revocation

`InMemoryRevocationStore`: a dictionary of token ids, each with the integer second until
which it is retained. Both methods read the clock and drop what has expired. A run is a
sequence of calls at clock reads that do not decrease.

## Main definitions

* `State.revoke`, `State.isRevoked` — the methods of the store.
* `step`, `revocations` — one call, and the revocations of a run.
* `isRevoked_iff` — what is revoked is what was revoked less than three seconds past its
  expiry.
* `revoked_through_acceptance` — a revoked token is reported while its lifetime holds.
-/
namespace SwarmAuth.Python.RevocationStore

/-! ## The store -/

/-- `_revoked`: until when each token id is retained. -/
abbrev State := Units → Option ℤ

/-- An empty store. -/
def State.empty : State := fun _ => none

/-- `_purge_expired_unlocked`. -/
def State.purgeExpired (s : State) (now : ℚ) : State := fun jti =>
  (s jti).filter fun expiresAt => !decide ((expiresAt : ℚ) ≤ now)

/-- `revoke`, its clock read `now`. -/
def State.revoke (s : State) (jti : Units) (expiresAt : ℤ) (now : ℚ) : State :=
  let retainedUntil := expiresAt + retentionAfterExpSeconds
  let s := s.purgeExpired now
  if (retainedUntil : ℚ) ≤ now then s
  else Function.update s jti (some (max retainedUntil ((s jti).getD 0)))

/-- `is_revoked`, its clock read `now`. -/
def State.isRevoked (s : State) (jti : Units) (now : ℚ) : Bool × State :=
  ((s.purgeExpired now jti).isSome, s.purgeExpired now)

/-! ## Runs -/

/-- A call of one of the methods. -/
inductive Request where
  | revoke (jti : Units) (expiresAt : ℤ)
  | isRevoked (jti : Units)
  deriving DecidableEq

/-- A call with its clock read. -/
structure Timed where
  request : Request
  time : ℚ
  deriving DecidableEq

/-- What a call asks to be remembered: a token id, three seconds past its expiry. -/
def Timed.revocation (c : Timed) : Option (Units × ℚ) :=
  match c.request with
  | .revoke jti expiresAt => some (jti, (expiresAt + retentionAfterExpSeconds : ℤ))
  | .isRevoked _ => none

/-- One call. -/
def step (s : State) (c : Timed) : Option (Units × ℚ) × State :=
  match c.request with
  | .revoke jti expiresAt => (c.revocation, s.revoke jti expiresAt c.time)
  | .isRevoked jti => (c.revocation, (s.isRevoked jti c.time).2)

/-- The store after a run. -/
def after (calls : List Timed) : State := Runs.final step .empty calls

/-- A token id was revoked, with this expiry. -/
def Revoked (calls : List Timed) (jti : Units) (expiresAt : ℤ) : Prop :=
  ∃ c ∈ calls, c.request = .revoke jti expiresAt

/-! ## What is remembered -/

/-- When a store reports a token id. -/
def State.live (s : State) : Deadlines.Memory Units := fun jti t =>
  ∃ retainedUntil, s jti = some retainedUntil ∧ t < (retainedUntil : ℚ)

theorem purgeExpired_eq_some {s : State} {now : ℚ} {jti : Units} {n : ℤ} :
    s.purgeExpired now jti = some n ↔ s jti = some n ∧ now < n := by
  simp [State.purgeExpired, Option.filter_eq_some_iff]

/-- The answer of `is_revoked`. -/
theorem isRevoked_eq {s : State} {jti : Units} {now : ℚ} :
    (s.isRevoked jti now).1 = true ↔ s.live jti now := by
  simp only [State.isRevoked, Option.isSome_iff_exists, purgeExpired_eq_some, State.live]

/-- A purge forgets nothing that is still to be reported. -/
theorem live_purgeExpired {s : State} {now : ℚ} {jti : Units} {t : ℚ} (ht : now ≤ t) :
    (s.purgeExpired now).live jti t ↔ s.live jti t := by
  simp only [State.live, purgeExpired_eq_some, and_assoc]
  refine exists_congr fun n => and_congr_right fun _ => ?_
  exact ⟨And.right, fun h => ⟨ht.trans_lt h, h⟩⟩

/-- **A revocation adds its own times**: a shorter one shortens nothing. -/
theorem live_revoke {s : State} {jti : Units} {expiresAt : ℤ} {now : ℚ} (hnow : 0 ≤ now)
    {k : Units} {t : ℚ} (ht : now ≤ t) :
    (s.revoke jti expiresAt now).live k t ↔
      s.live k t ∨ k = jti ∧ t < ((expiresAt + retentionAfterExpSeconds : ℤ) : ℚ) := by
  rw [← live_purgeExpired (s := s) ht]
  simp only [State.revoke]
  set p := s.purgeExpired now
  by_cases hpast : ((expiresAt + retentionAfterExpSeconds : ℤ) : ℚ) ≤ now
  · rw [if_pos hpast]
    refine ⟨Or.inl, fun h => h.resolve_right fun h => ?_⟩
    exact absurd h.2 (not_lt.mpr (hpast.trans ht))
  · rw [if_neg hpast]
    by_cases hk : k = jti
    · subst hk
      have hupdate : ∀ n : ℤ, Function.update p k (some n) k = some n :=
        fun n => Function.update_self k (some n) p
      simp only [State.live, hupdate, Option.some.injEq, exists_eq_left', Int.cast_max, lt_max_iff,
        true_and]
      cases p k with
      | none =>
          have hzero : ¬ t < ((0 : ℤ) : ℚ) := by
            rw [Int.cast_zero, not_lt]
            exact hnow.trans ht
          simp only [Option.getD_none, hzero, or_false, reduceCtorEq, false_and, exists_false,
            false_or]
      | some n => simp [or_comm]
    · simp [State.live, hk]

section Run
variable {calls : List Timed}

theorem step_logs (s : State) (c : Timed) : (step s c).1 = c.revocation := by
  rw [step]
  split <;> rfl

/-- One call keeps the store faithful to the revocations. -/
theorem step_faithful {now : ℚ} {s : State} {h : List (Units × ℚ)} {c : Timed}
    (hf : 0 ≤ now ∧ Deadlines.Faithful now s.live h) (hle : now ≤ c.time) :
    0 ≤ c.time ∧ Deadlines.Faithful c.time (step s c).2.live (h ++ (step s c).1.toList) := by
  have hnow : 0 ≤ c.time := hf.1.trans hle
  refine ⟨hnow, ?_⟩
  rw [step]
  cases hc : c.request with
  | revoke jti expiresAt =>
      simp only [Timed.revocation, hc, Option.toList_some]
      exact hf.2.extend hle fun k t ht => live_revoke hnow ht
  | isRevoked jti =>
      simp only [Timed.revocation, hc, Option.toList_none, List.append_nil]
      exact hf.2.mono hle fun k t ht => live_purgeExpired ht

/-- A run from an empty store is faithful to its revocations. -/
theorem faithful_after (hclock : (0 :: calls.map Timed.time).Pairwise (· ≤ ·)) :
    Deadlines.Faithful ((calls.map Timed.time).getLastD 0) (after calls).live
      (calls.filterMap Timed.revocation) := by
  have hinit : Deadlines.Faithful 0 State.empty.live ([] : List (Units × ℚ)) := by
    intro jti t _
    refine iff_of_false ?_ (Deadlines.not_requested_nil jti t)
    intro h
    obtain ⟨n, hn, -⟩ := h
    exact nomatch hn
  have hrun := Runs.invariant_of_step (P := fun _ _ => True)
    (fun now s h => 0 ≤ now ∧ Deadlines.Faithful now s.live h)
    (fun _ _ _ _ hf _ hle => step_faithful hf hle) calls ⟨le_rfl, hinit⟩
    (Runs.along_true step _ calls) hclock
  rw [List.nil_append, Runs.log_eq_filterMap step_logs] at hrun
  exact hrun.2

/-- What a run has asked to be remembered. -/
theorem requested_iff {jti : Units} {t : ℚ} :
    Deadlines.Requested (calls.filterMap Timed.revocation) jti t ↔
      ∃ expiresAt : ℤ, Revoked calls jti expiresAt ∧ t < expiresAt + 3 := by
  have hthree : (retentionAfterExpSeconds : ℚ) = 3 := rfl
  constructor
  · intro h
    obtain ⟨d, hmem, hlt⟩ := h
    obtain ⟨c, hc, hrev⟩ := List.mem_filterMap.mp hmem
    rw [Timed.revocation] at hrev
    split at hrev
    · next k e hreq =>
        obtain ⟨rfl, rfl⟩ := Prod.mk.inj (Option.some.inj hrev)
        rw [Int.cast_add, hthree] at hlt
        exact ⟨e, ⟨c, hc, hreq⟩, hlt⟩
    · exact nomatch hrev
  · intro h
    obtain ⟨e, ⟨c, hc, hreq⟩, hlt⟩ := h
    have hrev : c.revocation = some (jti, ((e + retentionAfterExpSeconds : ℤ) : ℚ)) := by
      rw [Timed.revocation, hreq]
    refine ⟨_, List.mem_filterMap.mpr ⟨c, hc, hrev⟩, ?_⟩
    rwa [Int.cast_add, hthree]

end Run

/-! ## Revocation covers the acceptance window -/

section Window
variable {calls : List Timed} {t : ℚ}

/-- **What is reported is what was revoked** less than three seconds past its expiry. -/
theorem isRevoked_iff (hclock : (0 :: (calls.map Timed.time ++ [t])).Pairwise (· ≤ ·))
    (jti : Units) : ((after calls).isRevoked jti t).1 = true ↔
      ∃ expiresAt : ℤ, Revoked calls jti expiresAt ∧ t < expiresAt + 3 := by
  rw [← List.cons_append, List.pairwise_append] at hclock
  have hlast : (calls.map Timed.time).getLastD 0 ≤ t := by
    refine hclock.2.2 _ ?_ t (List.mem_singleton_self t)
    rw [List.getLastD_eq_getLast?, List.mem_cons]
    cases hl : (calls.map Timed.time).getLast? with
    | none => exact Or.inl rfl
    | some a => exact Or.inr (List.mem_of_getLast? hl)
  rw [isRevoked_eq, faithful_after hclock.1 jti t hlast, requested_iff]

/-- A clock read at which a lifetime still holds comes before the store forgets it. -/
theorem lt_of_lifetime {exp leeway : ℤ} (hleeway : leeway ≤ maxLeewaySeconds)
    (hlife : intTime t ≤ exp + leeway) : t < exp + 3 := by
  have hint : t < intTime t + 1 := by
    rw [intTime]
    split_ifs
    · exact Int.lt_floor_add_one t
    · exact (Int.le_ceil t).trans_lt (lt_add_one _)
  have hle : intTime t + 1 ≤ exp + 3 := by
    rw [maxLeewaySeconds] at hleeway
    omega
  have hle' : ((intTime t : ℚ) + 1) ≤ exp + 3 := by exact_mod_cast hle
  exact hint.trans_le hle'

/-- **A revoked token is reported while its lifetime holds**: the store remembers exactly
what was revoked, and no leeway outlives it. -/
theorem revoked_through_acceptance (calls : List Timed) (t : ℚ)
    (hclock : (0 :: (calls.map Timed.time ++ [t])).Pairwise (· ≤ ·)) :
    (∀ jti, ((after calls).isRevoked jti t).1 = true ↔
      ∃ expiresAt : ℤ, Revoked calls jti expiresAt ∧ t < expiresAt + 3) ∧
    ∀ (c : CapabilityClaims) (leeway : ℤ), leeway ≤ maxLeewaySeconds →
      intTime t ≤ c.exp + leeway → Revoked calls c.jti c.exp →
      ((after calls).isRevoked c.jti t).1 = true := by
  refine ⟨isRevoked_iff hclock, fun c leeway hleeway hlife hrev => ?_⟩
  exact (isRevoked_iff hclock c.jti).mpr ⟨c.exp, hrev, lt_of_lifetime hleeway hlife⟩

theorem revoked_through_acceptance_sample :
    ((after [⟨.revoke (lit "j1") 1010, 1000⟩, ⟨.isRevoked (lit "j2"), 1005⟩]).isRevoked
      (lit "j1") (10129 / 10)).1 = true :=
  ((revoked_through_acceptance [⟨.revoke (lit "j1") 1010, 1000⟩, ⟨.isRevoked (lit "j2"), 1005⟩]
    (10129 / 10) (by decide +kernel)).1 (lit "j1")).mpr
    ⟨1010, ⟨_, List.mem_cons_self, rfl⟩, by norm_num⟩

end Window

/-- A verification at the clock read of its revocation check never returns a token that was
revoked with its own expiry. -/
theorem verifyCore_ne_ok_of_revoked (ed : SignatureCheck) (o : VerifyOptions) (token : Units)
    {calls : List Timed} {t : ℚ} {holder : Bool} {c : CapabilityClaims}
    (hclock : (0 :: (calls.map Timed.time ++ [t])).Pairwise (· ≤ ·))
    (hrev : Revoked calls c.jti c.exp) :
    verifyCore ed { o with revoked := fun jti => ((after calls).isRevoked jti t).1 } token t
      holder ≠ .ok c := by
  intro h
  obtain ⟨hleeway, -, r, -, rfl, -, hlive⟩ := verifyCore_ok.mp h
  have hreported := (revoked_through_acceptance calls t hclock).2 r.claims o.leewaySeconds
    hleeway.2 hlive.unexpired hrev
  exact absurd hreported (Bool.eq_false_iff.mp hlive.unrevoked)

end SwarmAuth.Python.RevocationStore
