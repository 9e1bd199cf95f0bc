import SwarmAuth.Python.Enforcement
import SwarmAuth.Lib.Store

/-!
# Shared budgets

`BudgetUsageTracker` reserves token counters and a named budget together. Its ledger maps
keys, texts of JSON lists, to entries; a reservation rewrites every entry of its chain and
budget, with the newest record's expiry, and drops what has expired.

## Main definitions

* `BudgetRule`, `Config` — the trusted configuration.
* `records`, `pending` — `_records` and `_pending`.
* `checkAndRecordChain`, `tracker` — the reservation, and the tracker.
* `checkAndRecordChain_cases` — a reservation rewrites the entries of its records, or none.
-/
namespace SwarmAuth.Python.BudgetUsageTracker

open Allowance (Charge Covers Charged Retains Admits Respects)

/-! ## Rules -/

/-- A budget: who may charge it, in which currency, up to what and until when. -/
structure RuleFields where
  id : Units
  issuers : List Units
  currency : Units
  maxAmountMinor : ℤ
  expiresAt : ℤ
  maxCalls : Option ℤ := none

/-- The checks of `BudgetRule.__post_init__`. -/
def RuleFields.valid (r : RuleFields) : Bool :=
  r.id ≠ [] && r.issuers ≠ [] && r.issuers.all (fun i => i ≠ []) && currencyCode r.currency &&
    (0 ≤ r.maxAmountMinor && r.maxAmountMinor ≤ maxSafe) && (0 < r.expiresAt && r.expiresAt ≤ maxSafe) &&
    r.maxCalls.all positiveSafe

/-- `BudgetRule`. -/
structure BudgetRule extends RuleFields where
  valid : toRuleFields.valid = true

/-- The configuration of a tracker; budget ids are unique. -/
structure Config where
  rules : List BudgetRule
  requireBudget : Bool := true
  unique : (rules.map (·.id)).Nodup

/-- `self.rules.get(id)`. -/
def Config.rule? (cfg : Config) (id : Units) : Option BudgetRule := cfg.rules.find? fun r => r.id = id

/-! ## Records -/

/-- `json.dumps([kind, id], ensure_ascii=False, separators=(",", ":"))`. -/
def ledgerKey (kind : String) (id : Units) : List ℕ :=
  [91] ++ Json.rawText (lit kind) ++ [44] ++ Json.rawText id ++ [93]

/-- `_Record`: the entry a reservation touches and the limits on it. -/
structure LedgerRecord where
  key : List ℕ
  expiry : ℤ
  calls : Option ℤ := none
  usd : Option Double := none
  rate : Option ℤ := none
  minorLimit : Option ℤ := none
  minor : ℤ := 0

/-- `_deny`. -/
def deny (message : String) : PyError := constraintViolation [.text message] "shared_budget"

/-- The record of a token. -/
def tokenRecord (claims : CapabilityClaims) : LedgerRecord where
  key := ledgerKey "token" claims.jti
  expiry := claims.exp + retentionAfterExpSeconds
  calls := claims.constraints.maxCalls
  usd := claims.constraints.maxAmountUsd
  rate := claims.constraints.rateLimitPerMin

/-- The record of a token that has not expired. -/
def liveTokenRecord (now : ℚ) (claims : CapabilityClaims) : Outcome LedgerRecord := do
  raiseIf ((claims.exp + retentionAfterExpSeconds : ℤ) ≤ now)
    (.of .tokenExpired [.text "Token expired before usage reservation"])
  return tokenRecord claims

/-- The record of a budget, for a charge of `minor`. -/
def BudgetRule.record (rule : BudgetRule) (minor : ℤ) : LedgerRecord where
  key := ledgerKey "budget" rule.id
  expiry := rule.expiresAt
  calls := rule.maxCalls
  minorLimit := some rule.maxAmountMinor
  minor := minor

/-- The record of the budget that the last token of the chain declares. -/
def budgetRecord (cfg : Config) (root leaf : CapabilityClaims) (now : ℚ) : Outcome LedgerRecord := do
  let pins := leaf.constraints.allowedParams
  let rule ← orRaise (leaf.constraints.sharedBudget.bind cfg.rule?)
    (deny "Token must pin a configured budget_id")
  raiseIf (root.iss ∉ rule.issuers) (deny "Issuer cannot charge this budget")
  raiseIf ((rule.expiresAt : ℚ) ≤ now) (deny "Shared budget expired")
  let minor ← orRaise (safeMinor (pins.get? "amount_minor"))
    (deny "Token must pin a non-negative safe integer amount_minor")
  raiseIf (pins.get? "currency" ≠ some (.str rule.currency))
    (deny "Token currency does not match shared budget")
  return rule.record minor

/-- `_records`. -/
def records (cfg : Config) (chain : List CapabilityClaims) (now : ℚ) : Outcome (List LedgerRecord) := do
  raiseIf (chain = [] ∨ ¬ (chain.map (·.jti)).Nodup) (deny "Delegation token ids must be distinct")
  let tokens ← chain.mapM (liveTokenRecord now)
  match chain.head?, chain.getLast? with
  | some root, some leaf =>
      if leaf.constraints.sharedBudget = none ∧ cfg.requireBudget = false then return tokens
      else do
        let budget ← budgetRecord cfg root leaf now
        return tokens ++ [budget]
  | _, _ => return tokens

/-! ## Entries -/

/-- An entry of the ledger; its amount is kept as text. -/
structure Entry where
  calls : ℕ
  usd : Layout
  minor : ℤ
  timestamps : List ℚ
  expiry : ℤ
  deriving DecidableEq

/-- What `.get` makes of a missing entry. -/
def Entry.missing : Entry := ⟨0, ⟨[48], [], none⟩, 0, [], 0⟩

/-- `_decimal_text`: positional, without the zeros that end a fraction. -/
def decimalText (value : Decimal) : Layout := (positional [] value).stripZeros

/-- The entry a record leaves. -/
def LedgerRecord.after (record : LedgerRecord) (current : Entry) (now : ℚ) (amount : Binary64) : Entry where
  calls := current.calls + 1
  usd := decimalText (decimalSum current.usd.decimal amount)
  minor := current.minor + record.minor
  timestamps := if record.rate.isSome then recentStamps current.timestamps now ++ [now] else []
  expiry := record.expiry

/-- `_pending`: the entry after the reservation. -/
def pending (record : LedgerRecord) (current : Entry) (now : ℚ) (amount : Binary64) : Outcome Entry := do
  let calls := current.calls + 1
  let total := decimalSum current.usd.decimal amount
  let minor := current.minor + record.minor
  let recent := recentStamps current.timestamps now
  raiseIf (record.calls.any fun n : ℤ => n < calls) (deny "Call allowance exhausted")
  raiseIf (record.usd.any fun d => (limitDecimal d).value < total.value)
    (deny "Token USD allowance exhausted")
  raiseIf (record.rate.any fun n : ℤ => n < recent.length + 1) (deny "Token rate allowance exhausted")
  raiseIf (record.minorLimit.any fun n => n < minor) (deny "Shared currency budget exhausted")
  return record.after current now amount

/-! ## The ledger -/

/-- The entries, by key. -/
abbrev State := List ℕ → Option Entry

/-- No entries. -/
def State.empty : State := fun _ => none

/-- `self._entries.get(key, {})`. -/
def State.get (s : State) (key : List ℕ) : Entry := (s key).getD .missing

/-- The entries that have not expired. -/
def State.unexpired (s : State) (now : ℚ) : State := fun key =>
  (s key).filter fun entry => now < entry.expiry

/-- `self._entries.update(pending)`. -/
def State.update (s : State) (entries : List (List ℕ × Entry)) : State := Store.updateAll s entries

/-- The entry a record leaves, under its key. -/
def pendingEntry (s : State) (now : ℚ) (amount : Binary64) (record : LedgerRecord) :
    Outcome (List ℕ × Entry) := do
  let entry ← pending record (s.get record.key) now amount
  return (record.key, entry)

/-- The entries a reservation leaves. -/
def pendingEntries (cfg : Config) (chain : List CapabilityClaims) (amount : Value) (now : ℚ)
    (s : State) : Outcome (List (List ℕ × Entry)) := do
  let x ← validatedAmount amount
  let records ← records cfg chain now
  records.mapM (pendingEntry s now x)

/-- `check_and_record_chain`. -/
def checkAndRecordChain (cfg : Config) (chain : List CapabilityClaims) (amount : Value) (now : ℚ)
    (s : State) : Outcome Unit × State :=
  match pendingEntries cfg chain amount now s with
  | .error e => (.error e, s)
  | .ok entries => (.ok (), (s.unexpired now).update entries)

/-- `BudgetUsageTracker`. -/
def tracker (cfg : Config) : Tracker State where
  requiresChain := true
  supportsSharedBudgets := true
  checkAndRecord claims := checkAndRecordChain cfg [claims]
  checkAndRecordChain := some (checkAndRecordChain cfg)

/-- What has not expired is kept. -/
theorem unexpired_of_some {s : State} {key : List ℕ} {e : Entry} {now : ℚ} (hs : s key = some e)
    (hlive : now < e.expiry) : s.unexpired now key = some e := by
  rw [State.unexpired, hs, Option.filter_some, if_pos (by simpa using hlive)]

theorem unexpired_some {s : State} {key : List ℕ} {e : Entry} {now : ℚ}
    (hs : s.unexpired now key = some e) : s key = some e := (Option.filter_eq_some_iff.mp hs).1

/-! ## Keys -/

theorem lex_ledgerKey (kind : String) (id : Units) :
    Json.lex classify (ledgerKey kind id) =
      some [.lbrack, .str (lit kind), .comma, .str id, .rbrack] := by
  have hopen : ∀ out, Json.lexRun classify ⟨out, .between⟩ [91] =
      some ⟨out ++ [.lbrack], .between⟩ := fun _ => rfl
  have hcomma : ∀ out, Json.lexRun classify ⟨out, .between⟩ [44] =
      some ⟨out ++ [.comma], .between⟩ := fun _ => rfl
  have hclose : ∀ out, Json.lexRun classify ⟨out, .between⟩ [93] =
      some ⟨out ++ [.rbrack], .between⟩ := fun _ => rfl
  simp only [Json.lex, ledgerKey, Json.lexRun_append, hopen, hcomma, hclose, Json.lexRun_rawText,
    Option.bind_some]
  rfl

/-- Keys tell records apart. -/
theorem ledgerKey_inj {kind kind' : String} {id id' : Units}
    (h : ledgerKey kind id = ledgerKey kind' id') : lit kind = lit kind' ∧ id = id' := by
  have hlex := congrArg (Json.lex classify) h
  rw [lex_ledgerKey, lex_ledgerKey] at hlex
  simp only [Option.some.injEq, List.cons.injEq, Json.Token.str.injEq, true_and, and_true] at hlex
  exact hlex

/-! ## What a reservation does -/

/-- The limits of a record. -/
def LedgerRecord.limits (r : LedgerRecord) : Allowance.Limits := limitsOf r.calls r.usd r.rate

/-- An entry as its limits see it. -/
def Entry.record (e : Entry) : Allowance.Record := ⟨e.calls, e.usd.decimal.value, e.timestamps⟩

/-- The checks of `_pending`, in terms of the limits. -/
structure Allowed (r : LedgerRecord) (current : Entry) (now : ℚ) (x : Binary64) : Prop where
  admits : Admits 60 r.limits (chargeOf x now) current.record (decimalSum current.usd.decimal x).value
  minor : ∀ m, r.minorLimit = some m → current.minor + r.minor ≤ m

theorem pending_ok {r : LedgerRecord} {current e : Entry} {now : ℚ} {x : Binary64} :
    pending r current now x = .ok e ↔ Allowed r current now x ∧ e = r.after current now x := by
  have hminor : ¬ (r.minorLimit.any fun n => n < current.minor + r.minor) = true ↔
      ∀ m, r.minorLimit = some m → current.minor + r.minor ≤ m := by
    cases r.minorLimit <;> simp
  have hadmits : (¬ (r.calls.any fun n : ℤ => n < current.calls + 1) = true ∧
      ¬ (r.usd.any fun d => (limitDecimal d).value < (decimalSum current.usd.decimal x).value) = true ∧
      ¬ (r.rate.any fun n : ℤ => n < (recentStamps current.timestamps now).length + 1) = true) ↔
      Admits 60 r.limits (chargeOf x now) current.record _ := checks_iff_admits (r := current.record)
  simp only [pending, raiseIf_bind_eq_ok, pure_eq_ok]
  constructor
  · intro h
    obtain ⟨hcalls, husd, hrate, hmin, rfl⟩ := h
    exact ⟨⟨hadmits.mp ⟨hcalls, husd, hrate⟩, hminor.mp hmin⟩, rfl⟩
  · intro h
    obtain ⟨⟨hadm, hmin⟩, rfl⟩ := h
    obtain ⟨hcalls, husd, hrate⟩ := hadmits.mpr hadm
    exact ⟨hcalls, husd, hrate, hminor.mpr hmin, rfl⟩

theorem pendingEntry_ok {s : State} {r : LedgerRecord} {e : List ℕ × Entry} {now : ℚ} {x : Binary64} :
    pendingEntry s now x r = .ok e ↔
      Allowed r (s.get r.key) now x ∧ e = (r.key, r.after (s.get r.key) now x) := by
  rw [pendingEntry, bind_eq_ok]
  simp only [pending_ok, pure_eq_ok]
  constructor
  · intro h
    obtain ⟨entry, ⟨hall, rfl⟩, rfl⟩ := h
    exact ⟨hall, rfl⟩
  · intro h
    obtain ⟨hall, rfl⟩ := h
    exact ⟨_, ⟨hall, rfl⟩, rfl⟩

/-- What `_records` establishes of the budget it charges. -/
structure BudgetCharge (cfg : Config) (root leaf : CapabilityClaims) (now : ℚ) (rule : BudgetRule)
    (minor : ℤ) : Prop where
  mem : rule ∈ cfg.rules
  declared : leaf.constraints.sharedBudget = some rule.id
  issuer : root.iss ∈ rule.issuers
  live : now < rule.expiresAt
  minor : safeMinor (leaf.constraints.allowedParams.get? "amount_minor") = some minor
  currency : leaf.constraints.allowedParams.get? "currency" = some (.str rule.currency)

theorem Config.rule?_some {cfg : Config} {id : Units} {rule : BudgetRule}
    (h : cfg.rule? id = some rule) : rule ∈ cfg.rules ∧ rule.id = id :=
  ⟨List.mem_of_find?_eq_some h, by simpa using List.find?_some h⟩

/-- Budget ids tell rules apart. -/
theorem Config.rule_unique {cfg : Config} {b b' : BudgetRule} (hb : b ∈ cfg.rules)
    (hb' : b' ∈ cfg.rules) (hid : b.id = b'.id) : b = b' :=
  List.inj_on_of_nodup_map cfg.unique hb hb' hid

theorem budgetRecord_ok {cfg : Config} {root leaf : CapabilityClaims} {now : ℚ} {r : LedgerRecord}
    (h : budgetRecord cfg root leaf now = .ok r) :
    ∃ rule minor, BudgetCharge cfg root leaf now rule minor ∧ r = rule.record minor := by
  obtain ⟨rule, hrule, h⟩ := bind_eq_ok.mp h
  obtain ⟨hiss, h⟩ := raiseIf_bind_eq_ok.mp h
  obtain ⟨hlive, h⟩ := raiseIf_bind_eq_ok.mp h
  obtain ⟨minor, hminor, h⟩ := bind_eq_ok.mp h
  obtain ⟨hcurrency, h⟩ := raiseIf_bind_eq_ok.mp h
  rw [orRaise_eq_ok] at hrule hminor
  obtain ⟨id, hid, hrule⟩ := Option.bind_eq_some_iff.mp hrule
  obtain ⟨hmem, rfl⟩ := Config.rule?_some hrule
  exact ⟨rule, minor, ⟨hmem, hid, not_not.mp hiss, not_le.mp hlive, hminor, not_not.mp hcurrency⟩,
    (pure_eq_ok.mp h).symm⟩

theorem liveTokenRecord_ok {now : ℚ} {claims : CapabilityClaims} {r : LedgerRecord} :
    liveTokenRecord now claims = .ok r ↔
      now < (claims.exp + retentionAfterExpSeconds : ℤ) ∧ r = tokenRecord claims := by
  rw [liveTokenRecord, raiseIf_bind_eq_ok, pure_eq_ok, not_le, eq_comm (a := r)]

/-- What `_records` establishes of a chain: its tokens are live, and it comes with the
record of its budget unless none is declared or needed. -/
structure Recorded (cfg : Config) (chain : List CapabilityClaims) (now : ℚ)
    (recs : List LedgerRecord) : Prop where
  distinct : (chain.map (·.jti)).Nodup
  live : ∀ claims ∈ chain, now < (claims.exp + retentionAfterExpSeconds : ℤ)
  budget : ∃ root leaf, chain.head? = some root ∧ chain.getLast? = some leaf ∧
    ((leaf.constraints.sharedBudget = none ∧ recs = chain.map tokenRecord) ∨
      ∃ rule minor, BudgetCharge cfg root leaf now rule minor ∧
        recs = chain.map tokenRecord ++ [rule.record minor])

theorem records_ok {cfg : Config} {chain : List CapabilityClaims} {now : ℚ} {recs : List LedgerRecord}
    (h : records cfg chain now = .ok recs) : Recorded cfg chain now recs := by
  obtain ⟨hchain, h⟩ := raiseIf_bind_eq_ok.mp h
  obtain ⟨tokens, htokens, h⟩ := bind_eq_ok.mp h
  obtain ⟨hlive, rfl⟩ := (mapM_eq_ok fun _ _ _ => liveTokenRecord_ok).mp htokens
  rw [not_or, not_not] at hchain
  refine ⟨hchain.2, hlive, ?_⟩
  obtain ⟨root, hroot⟩ := Option.ne_none_iff_exists'.mp (mt List.head?_eq_none_iff.mp hchain.1)
  obtain ⟨leaf, hleaf⟩ := Option.ne_none_iff_exists'.mp (mt List.getLast?_eq_none_iff.mp hchain.1)
  refine ⟨root, leaf, hroot, hleaf, ?_⟩
  rw [hroot, hleaf] at h
  by_cases hnone : leaf.constraints.sharedBudget = none ∧ cfg.requireBudget = false
  · simp only [if_pos hnone, pure_eq_ok] at h
    exact Or.inl ⟨hnone.1, h.symm⟩
  · simp only [if_neg hnone] at h
    obtain ⟨r, hr, h⟩ := bind_eq_ok.mp h
    obtain ⟨rule, minor, hcharge, rfl⟩ := budgetRecord_ok hr
    exact Or.inr ⟨rule, minor, hcharge, (pure_eq_ok.mp h).symm⟩

/-- The records of a chain do not depend on the clock. -/
theorem Recorded.unique {cfg : Config} {chain : List CapabilityClaims} {now now' : ℚ}
    {recs recs' : List LedgerRecord} (h : Recorded cfg chain now recs)
    (h' : Recorded cfg chain now' recs') : recs = recs' := by
  obtain ⟨root, leaf, -, hleaf, hcase⟩ := h.budget
  obtain ⟨root', leaf', -, hleaf', hcase'⟩ := h'.budget
  obtain rfl := Option.some.inj (hleaf.symm.trans hleaf')
  rcases hcase with ⟨hnone, rfl⟩ | ⟨rule, minor, hcharge, rfl⟩
  · rcases hcase' with ⟨-, rfl⟩ | ⟨rule', minor', hcharge', -⟩
    · rfl
    · exact absurd (hnone.symm.trans hcharge'.declared) nofun
  · rcases hcase' with ⟨hnone, -⟩ | ⟨rule', minor', hcharge', rfl⟩
    · exact absurd (hnone.symm.trans hcharge.declared) nofun
    · have hid := Option.some.inj (hcharge.declared.symm.trans hcharge'.declared)
      obtain rfl := Config.rule_unique hcharge.mem hcharge'.mem hid
      obtain rfl := Option.some.inj (hcharge.minor.symm.trans hcharge'.minor)
      rfl

theorem tokenKey_ne_budgetKey (jti id : Units) : ledgerKey "token" jti ≠ ledgerKey "budget" id := by
  intro h
  exact absurd (ledgerKey_inj h).1 (by decide)

/-- The records of a reservation have distinct keys. -/
theorem Recorded.nodup {cfg : Config} {chain : List CapabilityClaims} {now : ℚ}
    {recs : List LedgerRecord} (h : Recorded cfg chain now recs) :
    (recs.map LedgerRecord.key).Nodup := by
  have htokens : ((chain.map tokenRecord).map LedgerRecord.key).Nodup := by
    have hinj : Function.Injective fun jti => ledgerKey "token" jti := fun _ _ hk => (ledgerKey_inj hk).2
    have hmap := h.distinct.map hinj
    rwa [List.map_map] at hmap ⊢
  obtain ⟨root, leaf, -, -, ⟨-, rfl⟩ | ⟨rule, minor, -, rfl⟩⟩ := h.budget
  · exact htokens
  · rw [List.map_append, List.nodup_append]
    refine ⟨htokens, List.nodup_singleton _, ?_⟩
    intro a ha b hb
    simp only [List.map_map, List.mem_map, Function.comp_apply] at ha
    obtain ⟨claims, -, rfl⟩ := ha
    rw [List.mem_singleton.mp hb]
    exact tokenKey_ne_budgetKey claims.jti rule.id

/-- What a returned reservation leaves. -/
structure Reserved (recs : List LedgerRecord) (x : Binary64) (now : ℚ) (s s' : State) : Prop where
  allowed : ∀ r ∈ recs, Allowed r (s.get r.key) now x
  charged : ∀ r ∈ recs, s' r.key = some (r.after (s.get r.key) now x)
  same : ∀ key, key ∉ recs.map LedgerRecord.key → s' key = s.unexpired now key

/-- **A reservation rewrites the entries of its records and drops what has expired, or it
changes nothing.** -/
theorem checkAndRecordChain_cases {cfg : Config} {chain : List CapabilityClaims} {amount : Value}
    {now : ℚ} {s s' : State} {r : Outcome Unit}
    (h : checkAndRecordChain cfg chain amount now s = (r, s')) :
    (r ≠ .ok () ∧ s' = s) ∨ ∃ x recs, r = .ok () ∧ validatedAmount amount = .ok x ∧
      records cfg chain now = .ok recs ∧ Recorded cfg chain now recs ∧ Reserved recs x now s s' := by
  rw [checkAndRecordChain] at h
  split at h
  · obtain ⟨rfl, rfl⟩ := Prod.mk.inj h
    exact Or.inl ⟨error_ne_ok, rfl⟩
  · next entries hentries =>
      obtain ⟨rfl, rfl⟩ := Prod.mk.inj h
      obtain ⟨x, hx, hentries⟩ := bind_eq_ok.mp hentries
      obtain ⟨recs, hrecs, hentries⟩ := bind_eq_ok.mp hentries
      have hrec := records_ok hrecs
      obtain ⟨hallowed, rfl⟩ := (mapM_eq_ok fun _ _ _ => pendingEntry_ok).mp hentries
      have hkeys : (recs.map fun r => (r.key, r.after (s.get r.key) now x)).map Prod.fst =
          recs.map LedgerRecord.key := by
        rw [List.map_map]
        rfl
      refine Or.inr ⟨x, recs, rfl, hx, hrecs, hrec, hallowed, ?_, ?_⟩
      · intro r hr
        exact Store.updateAll_of_mem _ (by rw [hkeys]; exact hrec.nodup) (List.mem_map_of_mem hr)
      · intro key hkey
        rw [← hkeys] at hkey
        exact Store.updateAll_of_not_mem _ _ hkey

/-! ## Amounts as text -/

theorem value_decimalText (d : Decimal) : (decimalText d).decimal.value = d.value := by
  rw [decimalText, (Layout.stripZeros_decimal _).1, value_positional [] d rfl]

theorem le_exp_decimalText {d : Decimal} (h : -340 ≤ d.exp) : -340 ≤ (decimalText d).decimal.exp := by
  refine le_trans ?_ (Layout.stripZeros_decimal _).2
  simp only [positional, Layout.decimal]
  split_ifs <;> simp only [Option.elim_none, List.length_append, List.length_replicate,
    List.length_drop, List.length_nil] <;> omega

end SwarmAuth.Python.BudgetUsageTracker
