import SwarmAuth.Node.Usage
import SwarmAuth.Lib.Deadlines

/-!
# The in-memory revocation store in Node

`InMemoryRevocationStore` of `index.js` keeps, by `jti`, a number until which the token is
revoked, and forgets what has run out at every call.

## Main definitions

* `Expiry`, `State`, `revoke`, `isRevoked` — the store.
* `Live`, `Exact` — when it remembers a token.
* `step` — one call.
* `revocations_exact` — **it remembers what was asked of it, and nothing else**.
-/
namespace SwarmAuth.Node.InMemoryRevocationStore

open Js
open BudgetUsageTracker (reached)
open UsageTracker (maxNumber value_maxNumber reached_value value_zero)
open Deadlines (Faithful)

/-! ## The store -/

/-- `expiresAt`: a number, finite also three seconds later. -/
structure Expiry where
  expiresAt : Double
  finite : (plus expiresAt (.ofInt 3)).value?.isSome = true

/-- When the revocation ends. -/
def Expiry.deadline (e : Expiry) : ℚ := (plus e.expiresAt (.ofInt 3)).value?.get e.finite

/-- Until when tokens are revoked, by `jti`. -/
abbrev State := Units → Option Double

/-- Nothing is revoked. -/
def State.empty : State := fun _ => none

/-- `purge`. -/
def State.purge (s : State) (now : ℚ) : State := fun jti => (s jti).filter fun d => !reached d now

/-- `revoke`; it purges at `purged`, and reads the clock once more. -/
def revoke (jti : Units) (e : Expiry) (purged now : ℚ) (s : State) : State :=
  let kept := s.purge purged
  let deadline := plus e.expiresAt (.ofInt 3)
  if reached deadline now then kept
  else Function.update kept jti (some (maxNumber deadline ((kept jti).getD (.ofInt 0))))

/-- `isRevoked`: the answer, and the store that the look-up leaves. -/
def lookUp (jti : Units) (now : ℚ) (s : State) : Bool × State :=
  let kept := s.purge now
  ((kept jti).isSome, kept)

/-- The answer. -/
def isRevoked (s : State) (jti : Units) (now : ℚ) : Bool := (lookUp jti now s).1

/-! ## What is remembered -/

/-- The store remembers the token at this time. -/
def Live (s : State) : Deadlines.Memory Units := fun jti t => isRevoked s jti t = true

/-- Every entry is a finite number. -/
def Finite (s : State) : Prop := ∀ jti d, s jti = some d → ∃ q, d.value? = some q

section Store
variable {s : State} {jti k : Units} {e : Expiry} {d : Double} {now purged t q : ℚ}

theorem Expiry.value (e : Expiry) : (plus e.expiresAt (.ofInt 3)).value? = some e.deadline := by
  rw [Expiry.deadline, Option.some_get]

theorem live_iff (hs : Finite s) : Live s k t ↔ ∃ d q, s k = some d ∧ d.value? = some q ∧ t < q := by
  rw [Live, isRevoked, lookUp, State.purge]
  cases hk : s k with
  | none => simp
  | some d =>
      obtain ⟨q, hq⟩ := hs k d hk
      simp [Option.isSome_filter, reached_value hq, hq]

theorem Finite.purge (hs : Finite s) : Finite (s.purge now) :=
  fun jti d hd => hs jti d (Option.filter_eq_some_iff.mp hd).1

/-- **No later call can tell whether the store was purged.** -/
theorem purge_purge (hs : Finite s) (hnow : purged ≤ now) :
    (s.purge purged).purge now = s.purge now := by
  funext jti
  simp only [State.purge, Option.filter_filter]
  cases hk : s jti with
  | none => rfl
  | some d =>
      obtain ⟨q, hq⟩ := hs jti d hk
      by_cases hlive : now < q
      · simp [Option.filter_some, reached_value hq, hlive, hnow.trans_lt hlive]
      · simp [Option.filter_some, reached_value hq, hlive]

theorem isRevoked_purge (hs : Finite s) (hnow : purged ≤ now) :
    isRevoked (s.purge purged) jti now = isRevoked s jti now := by
  rw [isRevoked, lookUp, purge_purge hs hnow, isRevoked, lookUp]

theorem Finite.revoke (hs : Finite s) :
    Finite (InMemoryRevocationStore.revoke jti e purged now s) := by
  rw [InMemoryRevocationStore.revoke]
  by_cases hpast : reached (plus e.expiresAt (.ofInt 3)) now = true
  · simp only [hpast, if_true]
    exact hs.purge
  · simp only [hpast, Bool.false_eq_true, if_false]
    intro k d hd
    by_cases hk : k = jti
    · subst hk
      rw [Function.update_self, Option.some.injEq] at hd
      have hold : ∃ q, (((s.purge purged) k).getD (.ofInt 0)).value? = some q := by
        cases hkept : s.purge purged k with
        | none => exact ⟨0, value_zero⟩
        | some d => exact hs.purge k d hkept
      obtain ⟨q, hq⟩ := hold
      rw [← hd]
      exact ⟨_, value_maxNumber e.value hq⟩
    · rw [Function.update_of_ne hk] at hd
      exact hs.purge k d hd

/-- A purge drops nothing that is remembered from then on. -/
theorem live_purge (hs : Finite s) (ht : now ≤ t) : Live (s.purge now) k t ↔ Live s k t := by
  rw [Live, Live, isRevoked_purge hs ht]

/-- **A revocation adds its own time and nothing else**, from the epoch on. -/
theorem live_revoke (hs : Finite s) (hpurged : purged ≤ now) (hnow : 0 ≤ now) (ht : now ≤ t) :
    Live (revoke jti e purged now s) k t ↔ Live s k t ∨ k = jti ∧ t < e.deadline := by
  rw [← live_purge hs (hpurged.trans ht)]
  by_cases hpast : e.deadline ≤ now
  · have hreached : reached (plus e.expiresAt (.ofInt 3)) now = true := by
      rw [reached_value e.value, decide_eq_true hpast]
    have hnot : ¬ t < e.deadline := not_lt.mpr (hpast.trans ht)
    rw [revoke]
    simp only [hreached, if_true, hnot, and_false, or_false]
  · have hreached : reached (plus e.expiresAt (.ofInt 3)) now = false := by
      rw [reached_value e.value, decide_eq_false hpast]
    have hstored : revoke jti e purged now s = Function.update (s.purge purged) jti
        (some (maxNumber (plus e.expiresAt (.ofInt 3)) ((s.purge purged jti).getD (.ofInt 0)))) := by
      rw [revoke]
      simp only [hreached, Bool.false_eq_true, if_false]
    have hfinite : Finite (revoke jti e purged now s) := hs.revoke
    rw [live_iff hfinite, live_iff hs.purge, hstored]
    by_cases hk : k = jti
    · subst hk
      simp only [Function.update_self, true_and]
      cases hkept : s.purge purged k with
      | none =>
          have hmax := value_maxNumber e.value value_zero
          have hlate : max e.deadline 0 = e.deadline := max_eq_left (hnow.trans (not_le.mp hpast).le)
          rw [hlate] at hmax
          simp [hmax]
      | some d =>
          obtain ⟨q, hq⟩ := hs.purge k d hkept
          simp [value_maxNumber e.value hq, hq, or_comm]
    · simp only [Function.update_of_ne hk, hk, false_and, or_false]

end Store

/-! ## Runs -/

/-- A call of the store, with its clock reads. -/
inductive Request where
  | revoke (jti : Units) (e : Expiry) (purged now : ℚ)
  | lookUp (jti : Units) (now : ℚ)

/-- The last clock read. -/
def Request.time : Request → ℚ
  | .revoke _ _ _ now => now
  | .lookUp _ now => now

/-- The clock reads of one call do not decrease, and are not before the epoch. -/
def Request.Ordered : Request → Prop
  | .revoke _ _ purged now => purged ≤ now ∧ 0 ≤ now
  | .lookUp _ _ => True

/-- What a call asks to be remembered. -/
def Request.asked : Request → Option (Units × ℚ)
  | .revoke jti e _ _ => some (jti, e.deadline)
  | .lookUp _ _ => none

/-- A call, and what it asks. -/
def step (s : State) (r : Request) : Option (Units × ℚ) × State :=
  (r.asked, match r with
    | .revoke jti e purged now => revoke jti e purged now s
    | .lookUp jti now => (lookUp jti now s).2)

/-- The store remembers exactly what was asked. -/
structure Exact (now : ℚ) (s : State) (h : List (Units × ℚ)) : Prop where
  finite : Finite s
  faithful : Faithful now (Live s) h

section Runs
variable {s : State} {h : List (Units × ℚ)} {now : ℚ}

theorem Exact.empty (now : ℚ) : Exact now State.empty [] where
  finite _ _ hd := absurd hd (Option.some_ne_none _).symm
  faithful jti t _ := by
    refine iff_of_false ?_ (Deadlines.not_requested_nil jti t)
    simp [Live, isRevoked, lookUp, State.purge, State.empty]

theorem Exact.step (r : Request) (hs : Exact now s h) (hr : r.Ordered) (hnow : now ≤ r.time) :
    Exact r.time (InMemoryRevocationStore.step s r).2
      (h ++ (InMemoryRevocationStore.step s r).1.toList) := by
  cases r with
  | revoke jti e purged time =>
      refine ⟨hs.finite.revoke, hs.faithful.extend hnow ?_⟩
      intro k t ht
      exact live_revoke hs.finite hr.1 hr.2 ht
  | lookUp jti time =>
      refine ⟨hs.finite.purge, ?_⟩
      rw [show (InMemoryRevocationStore.step s (.lookUp jti time)).1.toList = [] from rfl,
        List.append_nil]
      refine hs.faithful.mono hnow ?_
      intro k t ht
      exact live_purge hs.finite ht

/-- **In every run the store reports a token revoked as long as some revocation of it lasts**,
three seconds past its `expiresAt`, and no longer. -/
theorem revocations_exact (requests : List Request) (hordered : ∀ r ∈ requests, r.Ordered)
    (hclock : (requests.map Request.time).Pairwise (· ≤ ·)) (jti : Units) (t : ℚ)
    (ht : (requests.map Request.time).getLastD 0 ≤ t) :
    isRevoked (Runs.final step State.empty requests) jti t = true ↔
      ∃ e purged now, Request.revoke jti e purged now ∈ requests ∧ t < e.deadline := by
  have halong : Runs.Along step (fun _ r => r.Ordered) State.empty requests := by
    rw [Runs.along_iff]
    intro before r after heq
    exact hordered r (by simp [heq])
  have hrun := Runs.log_invariant Exact (fun _ _ _ r hs hr hnow => hs.step r hr hnow)
    Exact.empty requests halong hclock
  have hasked : ∀ s r, (step s r).1 = r.asked := fun _ _ => rfl
  have hlog := Runs.log_eq_filterMap hasked State.empty requests
  refine (hrun.faithful jti t ht).trans ?_
  rw [hlog, Deadlines.Requested]
  constructor
  · intro h
    obtain ⟨d, hmem, hlt⟩ := h
    obtain ⟨r, hr, hr'⟩ := List.mem_filterMap.mp hmem
    cases r with
    | revoke k e purged now =>
        obtain ⟨rfl, rfl⟩ := Prod.mk.inj (Option.some.inj hr')
        exact ⟨e, purged, now, hr, hlt⟩
    | lookUp k now => cases hr'
  · intro h
    obtain ⟨e, purged, now, hr, hlt⟩ := h
    exact ⟨e.deadline, List.mem_filterMap.mpr ⟨_, hr, rfl⟩, hlt⟩

/-! ### A sample -/

theorem finite_sample : (plus (.ofInt 1010) (.ofInt 3)).value?.isSome = true := by decide +kernel

/-- A token that expires at 1010 is revoked at 1000, looked up, and revoked again at 1005. -/
def sampleRequests : List Request :=
  [.revoke (lit "j1") ⟨.ofInt 1010, finite_sample⟩ 1000 1000, .lookUp (lit "j1") 1001,
    .revoke (lit "j1") ⟨.ofInt 1010, finite_sample⟩ 1005 1005]

theorem revocations_exact_sample :
    isRevoked (Runs.final step State.empty sampleRequests) (lit "j1") 1012 = true ∧
      isRevoked (Runs.final step State.empty sampleRequests) (lit "j2") 1012 = false := by
  have hordered : ∀ r ∈ sampleRequests, r.Ordered := by
    intro r hr
    simp only [sampleRequests, List.mem_cons, List.not_mem_nil, or_false] at hr
    rcases hr with rfl | rfl | rfl
    · exact ⟨le_rfl, by norm_num⟩
    · trivial
    · exact ⟨le_rfl, by norm_num⟩
  refine ⟨?_, by decide +kernel⟩
  refine (revocations_exact sampleRequests hordered (by decide +kernel) (lit "j1") 1012
    (by decide +kernel)).mpr ⟨⟨.ofInt 1010, finite_sample⟩, 1000, 1000, ?_, ?_⟩
  · exact List.mem_cons_self
  · decide +kernel

end Runs
end SwarmAuth.Node.InMemoryRevocationStore
