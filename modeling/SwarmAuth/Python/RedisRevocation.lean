import SwarmAuth.Python.Revocation

/-!
# Revocation in Redis

`RedisRevocationStore`: a key with a time to live for each revoked token id. Redis expires
a key set with `EX n` after `n` seconds, and reports the rest of a time to live rounded to
the nearest second. The store needs whole seconds, of a difference of floats rounded up;
where the roundings disagree it keeps a key that expires too early, or sets one.

## Main definitions

* `ttl`, `revoke`, `isRevoked` — the commands, and the methods of the store.
* `Extends` — the key that a revocation keeps or sets does not expire too early.
* `retains_iff` — the revocations of a run are retained exactly when all extend.
-/
namespace SwarmAuth.Python.RedisRevocationStore

open RevocationStore (Request Timed)

/-! ## Redis -/

/-- The keys set, each until it expires. -/
abbrev State := Units → Option ℚ

/-- No key is set. -/
def State.empty : State := fun _ => none

/-- `EXISTS`. -/
def exists? (s : State) (key : Units) (now : ℚ) : Bool := (s key).any fun d => now < d

/-- `TTL`: what remains, to the nearest second, halves up; `-2` for a missing key. -/
def ttl (s : State) (key : Units) (now : ℚ) : ℤ :=
  match (s key).filter fun d => now < d with
  | some d => ⌊d - now + 1 / 2⌋
  | none => -2

/-- `SET key 1 EX seconds`. -/
def set (s : State) (key : Units) (seconds : ℤ) (now : ℚ) : State :=
  Function.update s key (some (now + seconds))

section Store
variable (keyPrefix : Units)

/-- `_key`. -/
def key (jti : Units) : Units := keyPrefix ++ jti

/-- `revoke`, at a clock read. -/
def revoke (s : State) (jti : Units) (expiresAt : ℤ) (now : ℚ) : Option State := do
  let ttlSeconds ← secondsLeft expiresAt now
  if ttlSeconds ≤ 0 then return s
  if ttlSeconds ≤ ttl s (key keyPrefix jti) now then return s
  return set s (key keyPrefix jti) ttlSeconds now

/-- `is_revoked`, at a clock read. -/
def isRevoked (s : State) (jti : Units) (now : ℚ) : Bool := exists? s (key keyPrefix jti) now

/-- What a completed call asks to be remembered. -/
def completed (c : Timed) : Option (Units × ℚ) :=
  match c.request with
  | .revoke _ expiresAt => (secondsLeft expiresAt c.time).bind fun _ => c.revocation
  | .isRevoked _ => none

/-- One call; one that raises changes nothing. -/
def step (s : State) (c : Timed) : Option (Units × ℚ) × State :=
  match c.request with
  | .revoke jti expiresAt => (completed c, (revoke keyPrefix s jti expiresAt c.time).getD s)
  | .isRevoked _ => (completed c, s)

/-- The server after a run. -/
def after (calls : List Timed) : State := Runs.final (step keyPrefix) .empty calls

/-- A key that is left in place lives until the revocation ends, and so does one that is set,
for the seconds that binary64 gives for what is left. -/
def Suffices (s : State) (jti : Units) (expiresAt : ℤ) (now : ℚ) (seconds : ℤ) : Prop :=
  if ∃ d, s (key keyPrefix jti) = some d ∧ now < d ∧ seconds ≤ ⌊d - now + 1 / 2⌋ then
    ∀ d, s (key keyPrefix jti) = some d → ((expiresAt + retentionAfterExpSeconds : ℤ) : ℚ) ≤ d
  else ((expiresAt + retentionAfterExpSeconds : ℤ) : ℚ) ≤ now + seconds

/-- A completed revocation that has not ended yet keeps or sets a key that lives as long. -/
def Extends (s : State) (c : Timed) : Prop :=
  ∀ jti expiresAt, c.request = .revoke jti expiresAt →
    c.time < (expiresAt + retentionAfterExpSeconds : ℤ) →
    ∀ seconds, secondsLeft expiresAt c.time = some seconds →
      Suffices keyPrefix s jti expiresAt c.time seconds

/-- A completed call revoked a token id, with this expiry. -/
def Revoked (calls : List Timed) (jti : Units) (expiresAt : ℤ) : Prop :=
  ∃ c ∈ calls, c.request = .revoke jti expiresAt ∧ (secondsLeft expiresAt c.time).isSome = true

/-- Whatever part of the run is complete, a revocation in it is reported until three seconds
past its expiry. -/
def Retains (calls : List Timed) : Prop :=
  ∀ before during, calls = before ++ during → ∀ t, (∀ c ∈ before, c.time ≤ t) →
    ∀ jti (expiresAt : ℤ), Revoked before jti expiresAt → t < expiresAt + 3 →
      isRevoked keyPrefix (after keyPrefix before) jti t = true

end Store

/-! ## What is remembered -/

section Memory
variable {keyPrefix : Units} {s : State}

/-- When the server has the key of a token id. -/
def State.live (keyPrefix : Units) (s : State) : Deadlines.Memory Units := fun jti t =>
  ∃ d, s (key keyPrefix jti) = some d ∧ t < d

theorem isRevoked_eq {jti : Units} {t : ℚ} :
    isRevoked keyPrefix s jti t = true ↔ s.live keyPrefix jti t := by
  simp [isRevoked, exists?, State.live, Option.any_eq_true]

theorem key_injective : Function.Injective (key keyPrefix) := List.append_right_injective keyPrefix

/-- A key set lives for its seconds, and no other key changes. -/
theorem live_set {jti : Units} {seconds : ℤ} {now : ℚ} {k : Units} {t : ℚ} :
    (set s (key keyPrefix jti) seconds now).live keyPrefix k t ↔
      if k = jti then t < now + seconds else s.live keyPrefix k t := by
  by_cases hk : k = jti
  · simp [State.live, set, hk]
  · have hkey : key keyPrefix k ≠ key keyPrefix jti := key_injective.ne hk
    simp [State.live, set, hk, hkey]

/-- What `TTL` says of a key that is there. -/
theorem ttl_of_live {k : Units} {now d : ℚ} (hd : s k = some d) (hlt : now < d) :
    ttl s k now = ⌊d - now + 1 / 2⌋ := by
  rw [ttl, hd, Option.filter_some, if_pos (by simpa using hlt)]

theorem ttl_of_not_live {k : Units} {now : ℚ} (h : ∀ d, s k = some d → d ≤ now) :
    ttl s k now = -2 := by
  rw [ttl]
  cases hd : s k with
  | none => rfl
  | some d =>
      rw [Option.filter_some, if_neg]
      simpa using h d hd

/-! ## A revocation -/

variable {now : ℚ} {jti : Units} {expiresAt seconds : ℤ}

/-- A key that is left in place is one for which `TTL` reports enough. -/
theorem le_ttl_iff (hpos : 0 < seconds) : seconds ≤ ttl s (key keyPrefix jti) now ↔
    ∃ d, s (key keyPrefix jti) = some d ∧ now < d ∧ seconds ≤ ⌊d - now + 1 / 2⌋ := by
  by_cases hlive : ∃ d, s (key keyPrefix jti) = some d ∧ now < d
  · obtain ⟨d, hd, hlt⟩ := hlive
    rw [ttl_of_live hd hlt]
    constructor
    · exact fun h => ⟨d, hd, hlt, h⟩
    · intro h
      obtain ⟨d', hd', -, hle⟩ := h
      rwa [Option.some.inj (hd.symm.trans hd')]
  · have hgone : ∀ d, s (key keyPrefix jti) = some d → d ≤ now := fun d hd =>
      not_lt.mp fun hlt => hlive ⟨d, hd, hlt⟩
    rw [ttl_of_not_live hgone]
    refine iff_of_false (by omega) fun h => ?_
    obtain ⟨d, hd, hlt, -⟩ := h
    exact hlive ⟨d, hd, hlt⟩

/-- **A revocation keeps the key, or sets it** for the seconds it needs; it sets none when it
needs no second. -/
theorem revoke_eq (hleft : secondsLeft expiresAt now = some seconds) :
    revoke keyPrefix s jti expiresAt now =
      if seconds ≤ 0 ∨ ∃ d, s (key keyPrefix jti) = some d ∧ now < d ∧ seconds ≤ ⌊d - now + 1 / 2⌋
      then some s else some (set s (key keyPrefix jti) seconds now) := by
  have hsplit : revoke keyPrefix s jti expiresAt now =
      if seconds ≤ 0 then some s
      else if seconds ≤ ttl s (key keyPrefix jti) now then some s
      else some (set s (key keyPrefix jti) seconds now) := by
    rw [revoke, hleft]
    rfl
  rw [hsplit]
  by_cases hpast : seconds ≤ 0
  · rw [if_pos hpast, if_pos (Or.inl hpast)]
  · rw [if_neg hpast]
    by_cases hkeep : seconds ≤ ttl s (key keyPrefix jti) now
    · rw [if_pos hkeep, if_pos (Or.inr ((le_ttl_iff (not_le.mp hpast)).mp hkeep))]
    · rw [if_neg hkeep, if_neg]
      exact not_or.mpr ⟨hpast, fun h => hkeep ((le_ttl_iff (not_le.mp hpast)).mpr h)⟩

theorem exists_revoke (keyPrefix : Units) (s : State) (jti : Units)
    (hleft : secondsLeft expiresAt now = some seconds) :
    ∃ s', revoke keyPrefix s jti expiresAt now = some s' := by
  rw [revoke_eq hleft]
  split_ifs
  · exact ⟨_, rfl⟩
  · exact ⟨_, rfl⟩

/-- **A revocation forgets nothing**: a key that is set outlives the one it replaces. -/
theorem live_of_live {s' : State} (h : revoke keyPrefix s jti expiresAt now = some s') {k : Units}
    {t : ℚ} (hlive : s.live keyPrefix k t) (ht : now ≤ t) : s'.live keyPrefix k t := by
  obtain ⟨seconds, hleft, -⟩ := Option.bind_eq_some_iff.mp h
  rw [revoke_eq hleft] at h
  by_cases hkept : seconds ≤ 0 ∨
      ∃ d, s (key keyPrefix jti) = some d ∧ now < d ∧ seconds ≤ ⌊d - now + 1 / 2⌋
  · rw [if_pos hkept, Option.some.injEq] at h
    rwa [← h]
  · rw [if_neg hkept, Option.some.injEq] at h
    rw [← h, live_set]
    by_cases hk : k = jti
    · subst hk
      rw [if_pos rfl]
      obtain ⟨d, hd, hlt⟩ := hlive
      have hshort : ⌊d - now + 1 / 2⌋ < seconds := by
        by_contra hle
        exact hkept (Or.inr ⟨d, hd, ht.trans_lt hlt, not_lt.mp hle⟩)
      have hd' : d - now + 1 / 2 < seconds := Int.floor_lt.mp hshort
      linarith
    · rwa [if_neg hk]

/-- **A key that suffices** is reported until the revocation ends. -/
theorem live_of_suffices {s' : State} (h : revoke keyPrefix s jti expiresAt now = some s')
    (hleft : secondsLeft expiresAt now = some seconds)
    (hsuffices : Suffices keyPrefix s jti expiresAt now seconds) {t : ℚ} (ht : now ≤ t)
    (hlt : t < (expiresAt + retentionAfterExpSeconds : ℤ)) : s'.live keyPrefix jti t := by
  rw [revoke_eq hleft] at h
  rw [Suffices] at hsuffices
  by_cases hkept : ∃ d, s (key keyPrefix jti) = some d ∧ now < d ∧ seconds ≤ ⌊d - now + 1 / 2⌋
  · rw [if_pos (Or.inr hkept), Option.some.injEq] at h
    rw [if_pos hkept] at hsuffices
    obtain ⟨d, hd, -⟩ := hkept
    exact ⟨d, h ▸ hd, hlt.trans_le (hsuffices d hd)⟩
  · rw [if_neg hkept] at hsuffices
    have hpos : ¬ seconds ≤ 0 := by
      intro hle
      have hcast : (seconds : ℚ) ≤ 0 := by exact_mod_cast hle
      linarith
    have hset := fun hor : seconds ≤ 0 ∨ _ => hor.elim hpos hkept
    rw [if_neg hset, Option.some.injEq] at h
    rw [← h, live_set, if_pos rfl]
    linarith

/-- **A key that does not suffice** is gone before the revocation ends. -/
theorem forgotten_of_not_suffices {s' : State} (h : revoke keyPrefix s jti expiresAt now = some s')
    (hleft : secondsLeft expiresAt now = some seconds)
    (hlt : now < (expiresAt + retentionAfterExpSeconds : ℤ))
    (hshort : ¬ Suffices keyPrefix s jti expiresAt now seconds) :
    ∃ t, now ≤ t ∧ t < (expiresAt + retentionAfterExpSeconds : ℤ) ∧ ¬ s'.live keyPrefix jti t := by
  rw [revoke_eq hleft] at h
  rw [Suffices] at hshort
  by_cases hkept : ∃ d, s (key keyPrefix jti) = some d ∧ now < d ∧ seconds ≤ ⌊d - now + 1 / 2⌋
  · rw [if_pos (Or.inr hkept), Option.some.injEq] at h
    rw [if_pos hkept] at hshort
    obtain ⟨d, hd, hlive, -⟩ := hkept
    refine ⟨d, hlive.le, ?_, ?_⟩
    · by_contra hlong
      exact hshort fun d' hd' => (Option.some.inj (hd.symm.trans hd')) ▸ not_lt.mp hlong
    · intro hlive'
      obtain ⟨d', hd', hlt'⟩ := hlive'
      rw [← h, hd] at hd'
      exact absurd hlt' (Option.some.inj hd' ▸ lt_irrefl d)
  · rw [if_neg hkept, not_le] at hshort
    by_cases hpast : seconds ≤ 0
    · rw [if_pos (Or.inl hpast), Option.some.injEq] at h
      refine ⟨now, le_rfl, hlt, ?_⟩
      intro hlive
      obtain ⟨d, hd, hnow⟩ := hlive
      rw [← h] at hd
      -- a key that is still there is enough for no second
      refine hkept ⟨d, hd, hnow, hpast.trans (Int.floor_nonneg.mpr ?_)⟩
      linarith
    · rw [if_neg (not_or.mpr ⟨hpast, hkept⟩), Option.some.injEq] at h
      have hpos : (0 : ℚ) < seconds := by exact_mod_cast not_le.mp hpast
      refine ⟨now + seconds, by linarith, hshort, ?_⟩
      rw [← h, live_set, if_pos rfl]
      exact lt_irrefl _

end Memory

/-! ## Runs -/

section Run
variable {keyPrefix : Units} {calls : List Timed}

theorem completed_revoke {c : Timed} {jti : Units} {expiresAt : ℤ} (hc : c.request = .revoke jti expiresAt) :
    completed c = (secondsLeft expiresAt c.time).map fun _ =>
      (jti, ((expiresAt + retentionAfterExpSeconds : ℤ) : ℚ)) := by
  cases hn : secondsLeft expiresAt c.time <;> simp [completed, Timed.revocation, hc, hn]

theorem step_keeps {now : ℚ} {s : State} {h : List (Units × ℚ)} {c : Timed}
    (hk : Deadlines.Keeps now (s.live keyPrefix) h) (hext : Extends keyPrefix s c)
    (hle : now ≤ c.time) : Deadlines.Keeps c.time ((step keyPrefix s c).2.live keyPrefix)
      (h ++ (step keyPrefix s c).1.toList) := by
  rw [step]
  cases hc : c.request with
  | revoke jti expiresAt =>
      simp only [completed_revoke hc]
      cases hleft : secondsLeft expiresAt c.time with
      | none =>
          have hraised : revoke keyPrefix s jti expiresAt c.time = none := by
            rw [revoke, hleft]
            rfl
          rw [hraised, Option.map_none, Option.toList_none, List.append_nil, Option.getD_none]
          exact hk.mono hle fun _ _ _ h => h
      | some seconds =>
          obtain ⟨s', hs'⟩ := exists_revoke keyPrefix s jti hleft
          rw [hs', Option.map_some, Option.toList_some, Option.getD_some]
          refine hk.extend hle (fun k t ht hlive => live_of_live hs' hlive ht) fun t ht hlt => ?_
          exact live_of_suffices hs' hleft
            (hext jti expiresAt hc (ht.trans_lt hlt) seconds hleft) ht hlt
  | isRevoked jti =>
      simp only [completed, hc, Option.toList_none, List.append_nil]
      exact hk.mono hle fun _ _ _ h => h

theorem step_logs (s : State) (c : Timed) : (step keyPrefix s c).1 = completed c := by
  rw [step]
  split <;> rfl

/-- What a run has asked to be remembered. -/
theorem requested_iff {jti : Units} {t : ℚ} : Deadlines.Requested (calls.filterMap completed) jti t ↔
    ∃ expiresAt : ℤ, Revoked calls jti expiresAt ∧ t < expiresAt + 3 := by
  have hthree : (retentionAfterExpSeconds : ℚ) = 3 := rfl
  constructor
  · intro h
    obtain ⟨d, hmem, hlt⟩ := h
    obtain ⟨c, hc, hasked⟩ := List.mem_filterMap.mp hmem
    cases hreq : c.request with
    | revoke k e =>
        rw [completed_revoke hreq] at hasked
        obtain ⟨n, hn, heq⟩ := Option.map_eq_some_iff.mp hasked
        obtain ⟨rfl, rfl⟩ := Prod.mk.inj heq
        rw [Int.cast_add, hthree] at hlt
        exact ⟨e, ⟨c, hc, hreq, by rw [hn]; rfl⟩, hlt⟩
    | isRevoked k =>
        rw [completed, hreq] at hasked
        exact nomatch hasked
  · intro h
    obtain ⟨e, ⟨c, hc, hreq, hsome⟩, hlt⟩ := h
    obtain ⟨n, hn⟩ := Option.isSome_iff_exists.mp hsome
    have hasked : completed c = some (jti, ((e + retentionAfterExpSeconds : ℤ) : ℚ)) := by
      rw [completed_revoke hreq, hn, Option.map_some]
    refine ⟨_, List.mem_filterMap.mpr ⟨c, hc, hasked⟩, ?_⟩
    rwa [Int.cast_add, hthree]

/-- A run whose revocations all extend retains them. -/
theorem retained_of_along (hclock : (calls.map Timed.time).Pairwise (· ≤ ·))
    (hext : Runs.Along (step keyPrefix) (Extends keyPrefix) .empty calls) {t : ℚ}
    (ht : ∀ c ∈ calls, c.time ≤ t) {jti : Units} {expiresAt : ℤ} (hrev : Revoked calls jti expiresAt)
    (hlt : t < expiresAt + 3) : isRevoked keyPrefix (after keyPrefix calls) jti t = true := by
  have hinit : ∀ now, Deadlines.Keeps now (State.empty.live keyPrefix) ([] : List (Units × ℚ)) :=
    fun _ k t _ h => absurd h (Deadlines.not_requested_nil k t)
  have hrun := Runs.log_invariant (fun now (s : State) h =>
      Deadlines.Keeps now (s.live keyPrefix) h) (fun _ _ _ _ hk hP hle => step_keeps hk hP hle) hinit calls hext hclock
  rw [Runs.log_eq_filterMap step_logs] at hrun
  have hne : calls.map Timed.time ≠ [] := by
    obtain ⟨c, hc, -⟩ := hrev
    exact List.ne_nil_of_mem (List.mem_map_of_mem hc)
  have hlast : (calls.map Timed.time).getLastD 0 ≤ t := by
    rw [List.getLastD_eq_getLast?, List.getLast?_eq_some_getLast hne, Option.getD_some]
    obtain ⟨c, hc, heq⟩ := List.mem_map.mp (List.getLast_mem hne)
    exact heq ▸ ht c hc
  exact isRevoked_eq.mpr (hrun jti t hlast (requested_iff.mpr ⟨_, hrev, hlt⟩))

/-- **Revocations are retained exactly when all extend**: no revocation of the run relies
on a key that expires before it must. -/
theorem retains_iff (keyPrefix : Units) (calls : List Timed)
    (hclock : (calls.map Timed.time).Pairwise (· ≤ ·)) : Retains keyPrefix calls ↔
      Runs.Along (step keyPrefix) (Extends keyPrefix) .empty calls := by
  rw [Runs.along_iff]
  constructor
  · intro hretains before c rest hsplit jti expiresAt hreq hlt seconds hleft
    by_contra hshort
    obtain ⟨s', hs'⟩ := exists_revoke keyPrefix (after keyPrefix before) jti hleft
    -- the token is forgotten at a time before the revocation ends
    obtain ⟨t, ht, hend, hgone⟩ := forgotten_of_not_suffices hs' hleft hlt hshort
    have hafter : after keyPrefix (before ++ [c]) = s' := by
      have hstep : (step keyPrefix (after keyPrefix before) c).2 = s' := by
        simp only [step, hreq, hs', Option.getD_some]
      rw [after, Runs.final_append]
      exact hstep
    rw [hsplit, List.map_append, List.map_cons, List.pairwise_append] at hclock
    have htimes : ∀ r ∈ before ++ [c], r.time ≤ t := by
      intro r hr
      rcases List.mem_append.mp hr with hr | hr
      · exact (hclock.2.2 _ (List.mem_map_of_mem hr) c.time List.mem_cons_self).trans ht
      · rw [List.mem_singleton.mp hr]
        exact ht
    have hrev : Revoked (before ++ [c]) jti expiresAt :=
      ⟨c, List.mem_append_right _ (List.mem_singleton_self c), hreq, by rw [hleft]; rfl⟩
    have hbefore : t < expiresAt + 3 := by
      have hthree : (retentionAfterExpSeconds : ℚ) = 3 := rfl
      rwa [Int.cast_add, hthree] at hend
    have hreported := hretains (before ++ [c]) rest (by rw [hsplit]; simp) t htimes jti expiresAt
      hrev hbefore
    rw [hafter, isRevoked_eq] at hreported
    exact hgone hreported
  · intro hext before during hsplit t ht jti expiresAt hrev hlt
    subst hsplit
    refine retained_of_along ?_ ?_ ht hrev hlt
    · rw [List.map_append, List.pairwise_append] at hclock
      exact hclock.1
    · rw [Runs.along_iff]
      intro pre c post heq
      exact hext pre c (post ++ during) (by rw [heq]; simp)

/-- A call at a whole second, of a revocation whose end binary64 has. -/
structure Whole (c : Timed) : Prop where
  clock : ∃ n : ℤ, c.time = n ∧ |n| ≤ 2 ^ 52
  revoked : ∀ jti expiresAt, c.request = .revoke jti expiresAt →
    |expiresAt + retentionAfterExpSeconds| ≤ 2 ^ 52

/-- Whole seconds leave nothing to round. -/
theorem secondsLeft_whole {expiresAt n : ℤ} (hn : |n| ≤ 2 ^ 52)
    (hend : |expiresAt + retentionAfterExpSeconds| ≤ 2 ^ 52) :
    secondsLeft expiresAt n = some (expiresAt + retentionAfterExpSeconds - n) := by
  have hshort : |expiresAt + retentionAfterExpSeconds - n| ≤ 2 ^ 53 := by
    rw [abs_le] at hn hend ⊢
    omega
  have hend' : |expiresAt + retentionAfterExpSeconds| ≤ 2 ^ 53 := hend.trans (by norm_num)
  rw [secondsLeft, rounded, nearestTo_intCast hend', Option.bind_eq_bind, Option.bind_some,
    ← Int.cast_sub, rounded, nearestTo_intCast hshort]
  show some ⌈((expiresAt + retentionAfterExpSeconds - n : ℤ) : ℚ)⌉ = _
  rw [Int.ceil_intCast]

theorem extends_of_whole {s : State} {c : Timed} (hc : Whole c)
    (hwhole : ∀ k d, s k = some d → ∃ m : ℤ, d = m) : Extends keyPrefix s c := by
  intro jti expiresAt hreq _ seconds hleft
  obtain ⟨n, hn, hbound⟩ := hc.clock
  rw [hn, secondsLeft_whole hbound (hc.revoked jti expiresAt hreq), Option.some.injEq] at hleft
  rw [Suffices, hn, ← hleft]
  split_ifs with hkept
  · obtain ⟨d, hd, -, hle⟩ := hkept
    intro d' hd'
    obtain rfl := Option.some.inj (hd.symm.trans hd')
    obtain ⟨m, rfl⟩ := hwhole _ d hd
    have hhalf : ⌊((m : ℚ) - n) + 1 / 2⌋ = m - n := by
      rw [Int.floor_eq_iff]
      push_cast
      constructor <;> linarith
    rw [hhalf] at hle
    exact_mod_cast (by omega : expiresAt + retentionAfterExpSeconds ≤ m)
  · push_cast
    linarith

theorem whole_step {s : State} {c : Timed} (hc : Whole c)
    (hwhole : ∀ k d, s k = some d → ∃ m : ℤ, d = m) (k : Units) (d : ℚ)
    (hd : (step keyPrefix s c).2 k = some d) : ∃ m : ℤ, d = m := by
  obtain ⟨n, hn, hbound⟩ := hc.clock
  rw [step] at hd
  split at hd
  · next jti expiresAt hreq =>
      have hleft : secondsLeft expiresAt c.time = some (expiresAt + retentionAfterExpSeconds - n) := by
        rw [hn]
        exact secondsLeft_whole hbound (hc.revoked jti expiresAt hreq)
      rw [revoke_eq hleft] at hd
      split_ifs at hd
      · exact hwhole k d hd
      · have hset : Function.update s (key keyPrefix jti) _ k = some d := hd
        rw [Function.update_apply] at hset
        split_ifs at hset
        · obtain rfl := Option.some.inj hset
          rw [hn]
          exact ⟨_, (Int.cast_add n _).symm⟩
        · exact hwhole k d hset
  · exact hwhole k d hd

/-- **On a clock that reads whole seconds** every run retains its revocations. -/
theorem retains_of_whole (keyPrefix : Units) (calls : List Timed)
    (hclock : (calls.map Timed.time).Pairwise (· ≤ ·)) (hwhole : ∀ c ∈ calls, Whole c) :
    Retains keyPrefix calls := by
  have halong : ∀ (s : State) (cs : List Timed), (∀ k d, s k = some d → ∃ m : ℤ, d = m) →
      (∀ c ∈ cs, Whole c) → Runs.Along (step keyPrefix) (Extends keyPrefix) s cs := by
    intro s cs hs hcs
    induction cs generalizing s with
    | nil => trivial
    | cons c cs ih =>
        rw [List.forall_mem_cons] at hcs
        exact ⟨extends_of_whole hcs.1 hs, ih _ (whole_step hcs.1 hs) hcs.2⟩
  exact (retains_iff keyPrefix calls hclock).mpr (halong .empty calls nofun hwhole)

end Run

/-! ### A revocation that is not extended -/

/-- A token revoked at 1000.5625 and again, for a second more, at 1001. -/
def shortened : List Timed := [⟨.revoke "j1" 1006, 16009 / 16⟩, ⟨.revoke "j1" 1007, 1001⟩]

/-- **A revocation is forgotten early**: the first key expires at 1009.5625, its time to
live counts as the nine seconds that the second revocation needs, and at 1009.75 the token is no
longer reported. -/
theorem revocation_forgotten : (shortened.map Timed.time).Pairwise (· ≤ ·) ∧
    Revoked shortened (lit "j1") 1007 ∧ (4039 / 4 : ℚ) < (1007 : ℤ) + 3 ∧
    isRevoked (lit "swarmauth:revoked:") (after (lit "swarmauth:revoked:") shortened) (lit "j1")
      (4039 / 4) = false := by
  refine ⟨by decide +kernel, ⟨⟨.revoke "j1" 1007, 1001⟩, ?_, rfl, by decide +kernel⟩, by norm_num,
    by decide +kernel⟩
  exact List.mem_cons_of_mem _ (List.mem_singleton_self _)

theorem retains_iff_sample : ¬ Runs.Along (step (lit "swarmauth:revoked:"))
    (Extends (lit "swarmauth:revoked:")) .empty shortened := by
  rw [← retains_iff (lit "swarmauth:revoked:") shortened (by decide +kernel)]
  intro h
  have hreported := h shortened [] (by simp) (4039 / 4) (by decide +kernel) (lit "j1") 1007
    ⟨⟨.revoke "j1" 1007, 1001⟩, List.mem_cons_of_mem _ (List.mem_singleton_self _), rfl,
      by decide +kernel⟩ (by norm_num)
  exact absurd hreported (by decide +kernel)

end SwarmAuth.Python.RedisRevocationStore
