import SwarmAuth.Go.Token
import SwarmAuth.Lib.Allowance
import SwarmAuth.Lib.Runs
import SwarmAuth.Lib.Store

/-!
# The execution boundary in Go

`Authorize` and the tracker of `enforcement.go`. Time is rational, a clock read's seconds
its floor. `Reserve` runs under a mutex, so it is one step; it drops expired entries even
when it then refuses.

## Main definitions

* `MemoryUsageTracker.Usage`, `MemoryUsageTracker.reserve` — the tracker.
* `EnforcementOptions`, `authorize` — a call.
* `reserve_cases`, `authorize_cases` — what they do to the tracker.
-/
namespace SwarmAuth.Go

/-! ## The tracker -/

/-- A `UsageTracker` of states `σ`: `Reserve` at a clock read, and what its
`SupportsSharedBudgets` answers, if it has one. -/
structure UsageTracker (σ : Type) where
  supportsSharedBudgets : Bool := false
  reserve : List Claims → Option ℚ → ℚ → σ → Outcome Unit × σ

/-- Addition of `int64`. -/
def addInt64 (a b : ℤ) : ℤ := (a + b).bmod (2 ^ 64)

namespace MemoryUsageTracker

/-- `usage`; the zero one stands for a missing entry. -/
structure Usage where
  calls : ℤ := 0
  amount : ℚ := 0
  timestamps : List ℚ := []
  expiry : ℤ := 0
  deriving DecidableEq

/-- The entries, by `jti`. -/
abbrev State := Bytes → Option Usage

/-- `NewMemoryUsageTracker`. -/
def State.empty : State := fun _ => none

/-- `tracker.entries[jti]`. -/
def State.get (s : State) (jti : Bytes) : Usage := (s jti).getD {}

/-- The entries that have not expired. -/
def State.purge (s : State) (now : ℚ) : State := fun jti =>
  (s jti).filter fun entry => ⌊now⌋ < entry.expiry

/-- The timestamps of the last minute. -/
def recent (timestamps : List ℚ) (now : ℚ) : List ℚ := timestamps.filter fun t => now - 60 ≤ t

/-- One more call passes a limit of the token. -/
def exhausted (limits : Constraints) (current : Usage) (amount now : ℚ) : Bool :=
  (limits.maxCalls.any fun n => n < addInt64 current.calls 1) ||
    (limits.maxAmountUSD.any fun m => m < current.amount + amount) ||
    limits.rateLimitPerMin.any fun n => n < ((recent current.timestamps now).length : ℤ) + 1

/-- The entry a call leaves: its expiry is the charged token's. -/
def charge (current : Usage) (exp : ℤ) (amount now : ℚ) : Usage :=
  ⟨addInt64 current.calls 1, current.amount + amount, recent current.timestamps now ++ [now], exp + 3⟩

/-- One token of the chain: its checks, and its entry under its `jti`. -/
def reserveStep (s : State) (amount now : ℚ) (pending : List (Bytes × Usage)) (claims : Claims) :
    Outcome (List (Bytes × Usage)) := do
  raiseIf (claims.jti ∈ pending.map Prod.fst)
    (.failure "CONSTRAINT_VIOLATION" "Duplicate token ids")
  raiseIf (claims.exp + 3 ≤ ⌊now⌋) (.failure "TOKEN_EXPIRED" "Token expired before reservation")
  let current := s.get claims.jti
  raiseIf (exhausted claims.constraints current amount now)
    (.failure "CONSTRAINT_VIOLATION" "Token allowance exhausted")
  return pending ++ [(claims.jti, charge current claims.exp amount now)]

/-- `Reserve`. -/
def reserve (chain : List Claims) (amount : Option ℚ) (now : ℚ) (s : State) :
    Outcome Unit × State :=
  match amount with
  | none => (.error (.failure "CONSTRAINT_VIOLATION" "Invalid amount"), s)
  | some amount =>
      if amount < 0 then (.error (.failure "CONSTRAINT_VIOLATION" "Invalid amount"), s)
      else
        match chain.foldlM (reserveStep (s.purge now) amount now) [] with
        | .error e => (.error e, s.purge now)
        | .ok [] => (.error (.new "Empty authorization chain"), s.purge now)
        | .ok pending => (.ok (), Store.updateAll (s.purge now) pending)

end MemoryUsageTracker

/-- The `MemoryUsageTracker`; it has no `SupportsSharedBudgets`. -/
def memoryUsageTracker : UsageTracker MemoryUsageTracker.State where
  reserve := MemoryUsageTracker.reserve

/-! ## Authorization -/

/-- `EnforcementOptions`, without the tracker. -/
structure EnforcementOptions extends VerifyOptions where
  capability : Bytes
  params : Params := .nil
  amount : Option Double := none

/-- A call of `Authorize`: its arguments, and the clock reads at which the token, its parent
and the reservation are judged. -/
structure Call where
  token : Bytes
  options : EnforcementOptions
  clock : ℚ
  parentClock : ℚ
  reserveClock : ℚ

/-- How `strconv.FormatFloat(value, 'g', -1, 64)` lays out a decimal: an exponent from `1e6`
on and below `1e-4`. -/
def formatLayout (d : Decimal) : Layout :=
  let point := (natText d.coeff).length + d.exp
  if -4 < point ∧ point ≤ 6 then positional [] d else scientific 2 d

/-- `Invalid amount`. -/
def invalidAmount : Err := .failure "CONSTRAINT_VIOLATION" "Invalid amount"

/-- The amount of a call as a rational, zero when none is given. -/
def resolveAmount : Option Double → Outcome ℚ
  | none => .ok 0
  | some (.finite neg mag) => do
      raiseIf (neg = true ∧ mag.sig ≠ 0) invalidAmount
      orRaise (setString ((formatLayout mag.shortest).text neg)) invalidAmount
  | some _ => .error invalidAmount

/-- The limits that need a tracker. -/
def stateful (c : Constraints) : Bool :=
  c.maxCalls.isSome || c.maxAmountUSD.isSome || c.rateLimitPerMin.isSome

section Enforcement
variable {σ : Type} (ed : SignatureCheck) (tracker : Option (UsageTracker σ))

/-- The checks of `Authorize` up to the reservation: what is verified, and the amount. -/
def admission (c : Call) : Outcome (Verified × ℚ) := do
  let o := c.options
  raiseIf (o.capability = [] ∨ o.audience = []) (.new "Authorize requires audience and capability")
  let verified ← verify ed o.toVerifyOptions c.token c.clock c.parentClock
  let limits := verified.claims.constraints
  raiseIf (!covered o.capability verified.claims.capabilities)
    (.failure "CAPABILITY_VIOLATION" "Missing capability")
  checkPins limits.allowedParams o.params
  raiseIf (limits.sharedBudget ≠ [] ∧ ¬ tracker.any UsageTracker.supportsSharedBudgets)
    (.failure "CONSTRAINT_VIOLATION" "Shared budget requires a budget-aware tracker")
  raiseIf (stateful limits = true ∧ tracker.isNone)
    (.failure "CONSTRAINT_VIOLATION" "Usage tracker required")
  raiseIf (limits.maxAmountUSD.isSome ∧ o.amount.isNone)
    (.failure "CONSTRAINT_VIOLATION" "Explicit amount required")
  let amount ← resolveAmount o.amount
  return (verified, amount)

/-- `Authorize`. -/
def authorize (c : Call) (s : σ) : Outcome Claims × σ :=
  match admission ed tracker c with
  | .error e => (.error e, s)
  | .ok (verified, amount) =>
      match tracker with
      | none => (.ok verified.claims, s)
      | some t =>
          match t.reserve verified.chain (some amount) c.reserveClock s with
          | (.error e, s') => (.error e, s')
          | (.ok (), s') => (.ok verified.claims, s')

/-- An accepted call, with the verified chain and the amount it reserved. -/
structure Accepted where
  call : Call
  chain : List Claims
  amount : ℚ

/-- A step of a run of calls on one tracker; an accepted call is logged. -/
def callStep (s : σ) (c : Call) : Option Accepted × σ :=
  match admission ed tracker c, authorize ed tracker c s with
  | .ok (verified, amount), (.ok _, s') => (some ⟨c, verified.chain, amount⟩, s')
  | _, (_, s') => (none, s')

/-- The accepted calls of a run, in order. -/
def accepted (s : σ) (calls : List Call) : List Accepted := Runs.log (callStep ed tracker) s calls

end Enforcement

/-! ## What a reservation does -/

namespace MemoryUsageTracker

variable {s s' : State} {amount now : ℚ} {chain : List Claims} {claims : Claims}

/-- The checks on one token of a chain. -/
structure Admitted (s : State) (amount now : ℚ) (claims : Claims) : Prop where
  live : now < (claims.exp + 3 : ℤ)
  within : exhausted claims.constraints (s.get claims.jti) amount now = false

theorem reserveStep_ok {pending out : List (Bytes × Usage)} :
    reserveStep s amount now pending claims = .ok out ↔
      claims.jti ∉ pending.map Prod.fst ∧ Admitted s amount now claims ∧
        out = pending ++ [(claims.jti, charge (s.get claims.jti) claims.exp amount now)] := by
  simp only [reserveStep, raiseIf_bind_eq_ok, pure_eq_ok, not_le, Int.floor_lt, Bool.not_eq_true]
  rw [eq_comm (b := out)]
  constructor
  · intro h
    exact ⟨h.1, ⟨h.2.1, h.2.2.1⟩, h.2.2.2⟩
  · intro h
    exact ⟨h.1, h.2.1.live, h.2.1.within, h.2.2⟩

/-- The loop over the chain: its tokens are admitted, and no two share a `jti`. -/
theorem reserveSteps_ok {pending out : List (Bytes × Usage)} :
    chain.foldlM (reserveStep s amount now) pending = .ok out →
      (∀ c ∈ chain, Admitted s amount now c) ∧
        ((pending.map Prod.fst).Nodup → (out.map Prod.fst).Nodup) ∧
        out = pending ++ chain.map fun c => (c.jti, charge (s.get c.jti) c.exp amount now) := by
  induction chain generalizing pending with
  | nil =>
      intro h
      rw [List.foldlM_nil, pure_eq_ok] at h
      subst h
      simp
  | cons c chain ih =>
      intro h
      rw [List.foldlM_cons, bind_eq_ok] at h
      obtain ⟨next, hstep, hrest⟩ := h
      obtain ⟨hnew, hadm, rfl⟩ := reserveStep_ok.mp hstep
      obtain ⟨hall, hnodup, rfl⟩ := ih hrest
      refine ⟨List.forall_mem_cons.mpr ⟨hadm, hall⟩, fun hp => hnodup ?_, by simp⟩
      rw [List.map_append, List.nodup_append]
      refine ⟨hp, List.nodup_singleton _, ?_⟩
      intro a ha b hb hab
      rw [List.map_singleton, List.mem_singleton] at hb
      rw [hab, hb] at ha
      exact hnew ha

/-- What a returned reservation establishes, and the state it leaves. -/
structure Reserved (chain : List Claims) (amount now : ℚ) (s s' : State) : Prop where
  nonneg : 0 ≤ amount
  admitted : ∀ c ∈ chain, Admitted (s.purge now) amount now c
  charged : ∀ c ∈ chain, s' c.jti = some (charge ((s.purge now).get c.jti) c.exp amount now)
  same : ∀ jti, jti ∉ chain.map Claims.jti → s' jti = s.purge now jti

/-- **A reservation charges every token of its chain or none**; a refused one changes at most
what has expired. -/
theorem reserve_cases {r : Outcome Unit} (h : reserve chain (some amount) now s = (r, s')) :
    (r ≠ .ok () ∧ (s' = s ∨ s' = s.purge now)) ∨ (r = .ok () ∧ Reserved chain amount now s s') := by
  rw [reserve] at h
  split_ifs at h with hneg
  · obtain ⟨rfl, rfl⟩ := Prod.mk.inj h
    exact Or.inl ⟨error_ne_ok, Or.inl rfl⟩
  · split at h
    · obtain ⟨rfl, rfl⟩ := Prod.mk.inj h
      exact Or.inl ⟨error_ne_ok, Or.inr rfl⟩
    · obtain ⟨rfl, rfl⟩ := Prod.mk.inj h
      exact Or.inl ⟨error_ne_ok, Or.inr rfl⟩
    · next pending hne hpending =>
        obtain ⟨rfl, rfl⟩ := Prod.mk.inj h
        obtain ⟨hadm, hnodup, hout⟩ := reserveSteps_ok hpending
        have hkeys : pending.map Prod.fst = chain.map Claims.jti := by
          rw [hout, List.nil_append, List.map_map]
          rfl
        refine Or.inr ⟨rfl, not_lt.mp hneg, hadm, ?_, ?_⟩
        · intro c hc
          apply Store.updateAll_of_mem _ (hnodup List.nodup_nil) (e := (c.jti, _))
          rw [hout, List.nil_append]
          exact List.mem_map_of_mem hc
        · intro jti hjti
          rw [← hkeys] at hjti
          exact Store.updateAll_of_not_mem _ _ hjti

end MemoryUsageTracker

/-- A call is refused without a reservation, or it makes one: accepted or refused with it. -/
theorem callStep_cases {σ : Type} (ed : SignatureCheck) (t : UsageTracker σ) (s : σ) (c : Call) :
    callStep ed (some t) s c = (none, s) ∨
      ∃ verified amount r s', admission ed (some t) c = .ok (verified, amount) ∧
        t.reserve verified.chain (some amount) c.reserveClock s = (r, s') ∧
        ((r ≠ .ok () ∧ callStep ed (some t) s c = (none, s')) ∨
          (r = .ok () ∧ callStep ed (some t) s c = (some ⟨c, verified.chain, amount⟩, s'))) := by
  rcases hadmitted : admission ed (some t) c with e | ⟨verified, amount⟩
  · left
    simp only [callStep, authorize, hadmitted]
  · right
    rcases hres : t.reserve verified.chain (some amount) c.reserveClock s with ⟨e | ⟨⟨⟩⟩, s'⟩
    · refine ⟨verified, amount, .error e, s', rfl, hres, Or.inl ⟨error_ne_ok, ?_⟩⟩
      simp only [callStep, authorize, hadmitted, hres]
    · refine ⟨verified, amount, .ok (), s', rfl, hres, Or.inr ⟨rfl, ?_⟩⟩
      simp only [callStep, authorize, hadmitted, hres]

end SwarmAuth.Go
