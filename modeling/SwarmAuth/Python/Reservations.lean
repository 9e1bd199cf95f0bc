import SwarmAuth.Python.Usage
import SwarmAuth.Python.RedisLedger

/-!
# Reservations of a chain

Both in-memory trackers look at every record of a chain before they charge one: a
reservation that raises leaves every live record as it was, and one that returns charges
each of its records once and touches no other.

## Main definitions

* `UsageTracker.charges`, `BudgetUsageTracker.charges` — the records a reservation leaves.
* `reservations_atomic` — chain reservations are all or nothing.
-/
namespace SwarmAuth.Python

namespace UsageTracker

/-- The records a reservation leaves if it returns: what has not expired, charged once. -/
def charges (chain : List CapabilityClaims) (amount : Value) (now : ℚ) (s : State) :
    List (Units × TokenUsage) :=
  match validatedAmount amount with
  | .error _ => []
  | .ok x => chain.map fun claims =>
      let usage := (s.purgeExpired now).get claims.jti
      (claims.jti, charge x now claims.exp usage (recentStamps usage.callTimestamps now))

theorem reservation_atomic (chain : List CapabilityClaims) (amount : Value) (now : ℚ) (s : State) :
    Store.AllOrNothing (fun usage => now < usage.expiresAt)
      ((checkAndRecordChain chain amount now s).1 = .ok ()) (chain.map (·.jti))
      (charges chain amount now s) s (checkAndRecordChain chain amount now s).2 := by
  rcases h : checkAndRecordChain chain amount now s with ⟨r, s'⟩
  show Store.AllOrNothing _ (r = .ok ()) _ _ s s'
  rcases checkAndRecordChain_cases h with ⟨hr, rfl | ⟨-, rfl⟩⟩ | ⟨x, rfl, hx, hres⟩
  · exact .of_refused hr (fun _ _ hs _ => hs) fun _ _ hs => hs
  · exact .of_refused hr (fun _ _ => purgeExpired_of_some) fun _ _ => purgeExpired_some
  · simp only [charges, hx]
    refine .of_made trivial ?_ hres.distinct ?_ ?_ ?_
    · rw [List.map_map]
      rfl
    · intro c hc
      obtain ⟨claims, hclaims, rfl⟩ := List.mem_map.mp hc
      exact hres.charged claims hclaims
    · intro jti hjti usage hs hlive
      rw [hres.same jti hjti]
      exact purgeExpired_of_some hs hlive
    · intro jti hjti usage hs
      rw [hres.same jti hjti] at hs
      exact purgeExpired_some hs

end UsageTracker

namespace BudgetUsageTracker
open RedisBudgetUsageTracker (ledgerKeys)

/-- The entries a reservation leaves if it returns: each of its records, charged once. -/
def charges (cfg : Config) (chain : List CapabilityClaims) (amount : Value) (now : ℚ) (s : State) :
    List (List ℕ × Entry) :=
  match validatedAmount amount, records cfg chain now with
  | .ok x, .ok recs => recs.map fun r => (r.key, r.after (s.get r.key) now x)
  | _, _ => []

/-- A reservation has a record of each token of its chain, and of the budget the last one
declares. -/
theorem Recorded.keys {cfg : Config} {chain : List CapabilityClaims} {now : ℚ}
    {recs : List LedgerRecord} (h : Recorded cfg chain now recs) :
    recs.map LedgerRecord.key = ledgerKeys chain := by
  obtain ⟨root, leaf, -, hleaf, ⟨hnone, rfl⟩ | ⟨rule, minor, hcharge, rfl⟩⟩ := h.budget
  · rw [ledgerKeys, hleaf, Option.bind_some, hnone, List.map_map]
    exact (List.append_nil _).symm
  · rw [ledgerKeys, hleaf, Option.bind_some, hcharge.declared, List.map_append, List.map_map]
    rfl

theorem reservation_atomic (cfg : Config) (chain : List CapabilityClaims) (amount : Value) (now : ℚ)
    (s : State) :
    Store.AllOrNothing (fun entry => now < entry.expiry)
      ((checkAndRecordChain cfg chain amount now s).1 = .ok ()) (ledgerKeys chain)
      (charges cfg chain amount now s) s (checkAndRecordChain cfg chain amount now s).2 := by
  rcases h : checkAndRecordChain cfg chain amount now s with ⟨r, s'⟩
  show Store.AllOrNothing _ (r = .ok ()) _ _ s s'
  rcases checkAndRecordChain_cases h with ⟨hr, rfl⟩ | ⟨x, recs, rfl, hx, hrec, hrecorded, hres⟩
  · exact .of_refused hr (fun _ _ hs _ => hs) fun _ _ hs => hs
  · have hkeys := hrecorded.keys
    have hcharges : charges cfg chain amount now s =
        recs.map fun r => (r.key, r.after (s.get r.key) now x) := by
      simp only [charges, hx, hrec]
    rw [hcharges]
    refine .of_made rfl ?_ (hkeys ▸ hrecorded.nodup) ?_ ?_ ?_
    · rw [List.map_map, ← hkeys]
      rfl
    · intro c hc
      obtain ⟨r, hr, rfl⟩ := List.mem_map.mp hc
      exact hres.charged r hr
    · intro key hkey entry hs hlive
      rw [← hkeys] at hkey
      rw [hres.same key hkey]
      exact unexpired_of_some hs hlive
    · intro key hkey entry hs
      rw [← hkeys] at hkey
      rw [hres.same key hkey] at hs
      exact unexpired_some hs

end BudgetUsageTracker

/-- **Chain reservations are all or nothing.** In every state of either tracker, for every
chain and amount: a reservation that raises leaves every live record unchanged, and one that
returns charges the record of each token of the chain, and of the budget if one applies,
once, and leaves every other live record unchanged. -/
theorem reservations_atomic (cfg : BudgetUsageTracker.Config) (chain : List CapabilityClaims)
    (amount : Value) (now : ℚ) :
    (∀ s, Store.AllOrNothing (fun usage : UsageTracker.TokenUsage => now < usage.expiresAt)
      ((UsageTracker.checkAndRecordChain chain amount now s).1 = .ok ()) (chain.map (·.jti))
      (UsageTracker.charges chain amount now s) s
      (UsageTracker.checkAndRecordChain chain amount now s).2) ∧
    ∀ s, Store.AllOrNothing (fun entry : BudgetUsageTracker.Entry => now < entry.expiry)
      ((BudgetUsageTracker.checkAndRecordChain cfg chain amount now s).1 = .ok ())
      (RedisBudgetUsageTracker.ledgerKeys chain) (BudgetUsageTracker.charges cfg chain amount now s) s
      (BudgetUsageTracker.checkAndRecordChain cfg chain amount now s).2 :=
  ⟨UsageTracker.reservation_atomic chain amount now,
    BudgetUsageTracker.reservation_atomic cfg chain amount now⟩

end SwarmAuth.Python
