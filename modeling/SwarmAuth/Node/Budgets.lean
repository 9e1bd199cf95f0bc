import SwarmAuth.Node.Token
import SwarmAuth.Node.Amounts
import SwarmAuth.Lib.Store

/-!
# Shared budgets in Node

`BudgetUsageTracker` of `redis.js`: records of a chain, the checks on an entry, and the
reservation. Counters are numbers, so a sum is the number nearest to the exact one; amounts
are decimal texts. A clock read is exact.

## Main definitions

* `BudgetRule`, `Config` — the trusted configuration.
* `records`, `pending` — the records a reservation touches, and the entry each leaves.
* `checkAndRecordChain` — the reservation of the tracker in memory.
-/
namespace SwarmAuth.Node.BudgetUsageTracker

open Js

/-- `deny(message)`. -/
def deny (message : String) : Thrown := .swarmAuth "CONSTRAINT_VIOLATION" message

/-! ## Rules -/

/-- `safe` of a number. -/
def safe (d : Double) : Bool := isSafeInteger d && !lessThan d (.ofInt 0)

/-- `safe` of a value. -/
def safeValue : Value → Bool
  | .scalar (.number d) => safe d
  | _ => false

/-- A budget: who may charge it, in which currency, up to what and until when. -/
structure RuleFields where
  id : Units
  issuers : List Units
  currency : Units
  maxAmountMinor : Double
  expiresAt : Double
  maxCalls : Option Double := none

/-- A safe integer that is not zero. -/
def positive (d : Double) : Bool := safe d && d.value? ≠ some 0

/-- The checks of the constructor of `BudgetRule`. -/
def RuleFields.valid (r : RuleFields) : Bool :=
  r.id ≠ [] && r.issuers ≠ [] && r.issuers.all (fun i => i ≠ []) && isCurrency (.str r.currency) &&
    safe r.maxAmountMinor && positive r.expiresAt && r.maxCalls.all positive

/-- `BudgetRule`. -/
structure BudgetRule extends RuleFields where
  valid : toRuleFields.valid = true

/-- The configuration of a tracker; budget ids are unique. -/
structure Config where
  rules : List BudgetRule
  requireBudget : Bool := true
  unique : (rules.map (·.id)).Nodup

/-- `this.rules.get(id)`. -/
def Config.rule? (cfg : Config) (id : Units) : Option BudgetRule := cfg.rules.find? fun r => r.id = id

/-! ## Records -/

/-- `JSON.stringify([kind, id])`. -/
def ledgerKey (kind : String) (id : Units) : Units :=
  ([91] ++ stringifyString (lit kind) ++ [44] ++ stringifyString id ++ [93]).map UInt16.ofNat

/-- The entry a reservation touches and the limits on it. -/
structure LedgerRecord where
  key : Units
  expiry : Double
  maxCalls : Option Double := none
  maxUsd : Option Double := none
  rate : Option Double := none
  minorLimit : Option Double := none
  minor : Double

/-- `now >= d` of a clock read. -/
def reached (d : Double) (now : ℚ) : Bool := d.value?.any fun q => q ≤ now

/-- The record of a token. -/
def tokenRecord (claims : Claims) : LedgerRecord where
  key := ledgerKey "token" claims.jti
  expiry := plus claims.exp (.ofInt 3)
  maxCalls := claims.constraints.maxCalls
  maxUsd := claims.constraints.maxAmountUsd
  rate := claims.constraints.rateLimitPerMin
  minor := .ofInt 0

/-- The record of a token that has not expired. -/
def liveTokenRecord (now : ℚ) (claims : Claims) : Outcome LedgerRecord := do
  raiseIf (reached (plus claims.exp (.ofInt 3)) now)
    (.swarmAuth "TOKEN_EXPIRED" "Token expired before reservation")
  return tokenRecord claims

/-- The record of a budget, for a charge of `minor`. -/
def BudgetRule.record (rule : BudgetRule) (minor : Double) : LedgerRecord where
  key := ledgerKey "budget" rule.id
  expiry := rule.expiresAt
  maxCalls := rule.maxCalls
  minorLimit := some rule.maxAmountMinor
  minor := minor

/-- The record of the budget that the last token of the chain declares. -/
def budgetRecord (cfg : Config) (root leaf : Claims) (now : ℚ) : Outcome LedgerRecord := do
  let pins := leaf.constraints.allowedParams
  let rule ← orRaise (leaf.constraints.sharedBudget.bind cfg.rule?)
    (deny "Token must pin a configured budget_id")
  raiseIf (root.iss ∉ rule.issuers) (deny "Issuer cannot charge this budget")
  raiseIf (reached rule.expiresAt now) (deny "Shared budget expired")
  raiseIf (!safeValue (pins.get "amount_minor"))
    (deny "Token must pin a non-negative safe integer amount_minor")
  raiseIf (pins.get "currency" ≠ .str rule.currency)
    (deny "Token currency does not match shared budget")
  return rule.record ((numberOf (pins.get "amount_minor")).getD .nan)

/-- `records`. -/
def records (cfg : Config) (chain : List Claims) (now : ℚ) : Outcome (List LedgerRecord) := do
  raiseIf (chain = [] ∨ ¬ (chain.map (·.jti)).Nodup) (deny "Token ids must be distinct")
  let tokens ← chain.mapM (liveTokenRecord now)
  match chain.head?, chain.getLast? with
  | some root, some leaf =>
      if leaf.constraints.sharedBudget = none ∧ cfg.requireBudget = false then return tokens
      else do
        let budget ← budgetRecord cfg root leaf now
        return tokens ++ [budget]
  | _, _ => return tokens

/-! ## Entries -/

/-- An entry of the ledger; its amount is kept as text. -/
structure Entry where
  calls : Double
  usd : List ℕ
  minor : Double
  timestamps : List ℚ
  expiry : Double

/-- What `??` makes of a missing entry. -/
def Entry.missing : Entry := ⟨.ofInt 0, Json.codes "0", .ofInt 0, [], .ofInt 0⟩

/-- `timestamps.filter((stamp) => stamp >= now - 60)`. -/
def recentStamps (stamps : List ℚ) (now : ℚ) : List ℚ := stamps.filter fun t => now - 60 ≤ t

/-- `amountExceeds(usd, record.maxUsd)`, of a record that has a limit. -/
def exceedsLimit (usd : List ℕ) : Option Double → Option Bool
  | some limit => amountExceeds usd (numberText limit)
  | none => some false

/-- `pending`: the entry after the reservation. -/
def pending (record : LedgerRecord) (current : Entry) (now : ℚ) (amount : Double) : Outcome Entry := do
  let calls := plus current.calls (.ofInt 1)
  let usd ← orRaise (addAmounts current.usd (numberText amount)) (.error "Cannot convert to a BigInt")
  let minor := plus current.minor record.minor
  let recent := recentStamps current.timestamps now
  raiseIf (record.maxCalls.any fun n => lessThan n calls) (deny "Call allowance exhausted")
  let exceeds ← orRaise (exceedsLimit usd record.maxUsd) (.error "Cannot convert to a BigInt")
  raiseIf exceeds (deny "Token USD allowance exhausted")
  raiseIf (record.rate.any fun n => lessThan n (plus (.ofInt recent.length) (.ofInt 1)))
    (deny "Token rate allowance exhausted")
  raiseIf (record.minorLimit.any fun n => lessThan n minor) (deny "Shared currency budget exhausted")
  return ⟨calls, usd, minor, if record.rate.isSome then recent ++ [now] else [], record.expiry⟩

/-! ## The ledger -/

/-- The entries, by key. -/
abbrev State := Units → Option Entry

/-- `this.entries.get(key) ?? {}`. -/
def State.get (s : State) (key : Units) : Entry := (s key).getD .missing

/-- The entry a record leaves, under its key. -/
def pendingEntry (s : State) (now : ℚ) (amount : Double) (record : LedgerRecord) :
    Outcome (Units × Entry) := do
  let entry ← pending record (s.get record.key) now amount
  return (record.key, entry)

/-- The entries a reservation leaves. -/
def pendingEntries (cfg : Config) (chain : List Claims) (amount : Double) (now : ℚ) (s : State) :
    Outcome (List (Units × Entry)) := do
  raiseIf (!isFinite amount || lessThan amount (.ofInt 0)) (deny "Invalid amount")
  let records ← records cfg chain now
  records.mapM (pendingEntry s now amount)

/-- The entries that have not expired. -/
def State.unexpired (s : State) (now : ℚ) : State := fun key =>
  (s key).filter fun entry => !reached entry.expiry now

/-- `checkAndRecordChain`. -/
def checkAndRecordChain (cfg : Config) (chain : List Claims) (amount : Double) (now : ℚ)
    (s : State) : Outcome Unit × State :=
  match pendingEntries cfg chain amount now s with
  | .error e => (.error e, s)
  | .ok entries => (.ok (), Store.updateAll (s.unexpired now) entries)

end SwarmAuth.Node.BudgetUsageTracker
