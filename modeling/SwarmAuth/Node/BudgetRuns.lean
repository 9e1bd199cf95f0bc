import SwarmAuth.Node.Encode
import SwarmAuth.Node.RedisLedger
import SwarmAuth.Node.Usage

/-!
# Shared budgets in Node over whole runs

`BudgetUsageTracker` of `redis.js` keeps the entry of a budget until the budget expires. Its
counters are numbers, whose sums are rounded beyond `2 ^ 53`; limits lie below that, so a sum
that passes the check is exact.

## Main definitions

* `stringifyString_injective`, `ledgerKey_inj` — keys tell records apart.
* `Request`, `step`, `chargedTo`, `spentMinor` — the calls, and what they charge to a budget.
* `Conserved` — what a budget's entry says of them.
* `budgets_hold` — **no run passes any budget's limits**.
-/
namespace SwarmAuth.Node

open Js

/-! ## Keys -/

/-- Quoted texts tell texts apart. -/
theorem stringifyString_injective : Function.Injective stringifyString := by
  intro s t h
  have hencode : encodeString s = encodeString t := by rw [encodeString, encodeString, h]
  rw [encodeString_eq, encodeString_eq] at hencode
  have hlex := congrArg (Json.lexRun (fun _ => (none : Option Unit)) ⟨[], .between⟩) hencode
  have hread : ∀ u : Units, Json.lexRun (fun _ => (none : Option Unit)) ⟨[], .between⟩
      (34 :: u.flatMap Json.escapeUnit ++ [34]) = some ⟨[] ++ [.str u], .between⟩ :=
    fun u => Json.lexRun_strText _ (fun _ => []) [] u
  rw [hread, hread] at hlex
  simpa using hlex

theorem quoteCode_lt (c : ℕ) : ∀ u ∈ quoteCode c, u < 65536 := by
  have hdigit : ∀ d, Json.hexDigit (d % 16) < 65536 := by
    intro d
    rw [Json.hexDigit]
    split <;> omega
  intro u hu
  rw [quoteCode] at hu
  split_ifs at hu
  all_goals try (simp only [List.mem_cons, List.not_mem_nil, or_false] at hu; omega)
  · -- an escaped control or surrogate
    simp only [Json.hexEscape, List.mem_cons, List.not_mem_nil, or_false] at hu
    rcases hu with rfl | rfl | rfl | rfl | rfl | rfl
    · omega
    · omega
    all_goals exact hdigit _
  · obtain ⟨v, -, rfl⟩ := List.mem_map.mp hu
    exact v.toNat_lt

theorem stringifyString_lt (s : Units) : ∀ u ∈ stringifyString s, u < 65536 := by
  intro u hu
  simp only [stringifyString, List.cons_append, List.mem_cons, List.mem_append, List.mem_flatMap,
    List.not_mem_nil, or_false] at hu
  rcases hu with rfl | ⟨c, -, hc⟩ | rfl
  · omega
  · exact quoteCode_lt c u hc
  · omega

/-- Codes below `2 ^ 16` are units. -/
theorem map_ofNat_inj {l l' : List ℕ} (hl : ∀ u ∈ l, u < 65536) (hl' : ∀ u ∈ l', u < 65536)
    (h : l.map UInt16.ofNat = l'.map UInt16.ofNat) : l = l' := by
  have hback : ∀ {m : List ℕ}, (∀ u ∈ m, u < 65536) → (m.map UInt16.ofNat).map UInt16.toNat = m := by
    intro m hm
    rw [List.map_map]
    refine (List.map_congr_left fun u hu => ?_).trans (List.map_id m)
    exact UInt16.toNat_ofNat_of_lt' (hm u hu)
  rw [← hback hl, ← hback hl', h]

namespace BudgetUsageTracker

/-- A key as codes. -/
theorem ledgerKey_codes {kind kind' : String} {id id' : Units}
    (h : ledgerKey kind id = ledgerKey kind' id') :
    stringifyString (lit kind) ++ [44] ++ stringifyString id =
      stringifyString (lit kind') ++ [44] ++ stringifyString id' := by
  have hlt : ∀ (kind : String) (id : Units), ∀ u ∈ [91] ++ stringifyString (lit kind) ++ [44] ++
      stringifyString id ++ [93], u < 65536 := by
    intro kind id u hu
    simp only [List.mem_append, List.mem_singleton] at hu
    rcases hu with (((rfl | hu) | rfl) | hu) | rfl
    · omega
    · exact stringifyString_lt _ u hu
    · omega
    · exact stringifyString_lt _ u hu
    · omega
  have hcodes := List.append_cancel_right (map_ofNat_inj (hlt kind id) (hlt kind' id') h)
  simpa [List.append_assoc] using hcodes

/-- Keys of one kind tell ids apart. -/
theorem ledgerKey_inj {kind : String} {id id' : Units} (h : ledgerKey kind id = ledgerKey kind id') :
    id = id' := by
  have hcodes := ledgerKey_codes h
  exact stringifyString_injective (List.append_cancel_left hcodes)

/-- The keys of tokens are not those of budgets. -/
theorem tokenKey_ne_budgetKey (jti id : Units) : ledgerKey "token" jti ≠ ledgerKey "budget" id := by
  intro h
  have htoken : stringifyString (lit "token") = 34 :: 116 :: Json.codes "oken" ++ [34] := by decide
  have hbudget : stringifyString (lit "budget") = 34 :: 98 :: Json.codes "udget" ++ [34] := by decide
  have hcodes := ledgerKey_codes h
  rw [htoken, hbudget] at hcodes
  simp at hcodes

/-! ## Calls -/

/-- A call of `checkAndRecordChain`, and its clock read. -/
structure Request where
  chain : List Claims
  amount : Double
  now : ℚ

/-- One call; what returns is logged. -/
def step (cfg : Config) (s : State) (r : Request) : Option Request × State :=
  match checkAndRecordChain cfg r.chain r.amount r.now s with
  | (.ok _, s') => (some r, s')
  | (.error _, s') => (none, s')

/-- The calls that charged the budget: the last token of the chain declares it. -/
def chargedTo (b : BudgetRule) (log : List Request) : List Request :=
  log.filter fun r => r.chain.getLast?.bind (·.constraints.sharedBudget) = some b.id

/-- The amount that the last token pins. -/
def amountMinor (r : Request) : ℤ :=
  (r.chain.getLast?.bind fun leaf =>
    (numberOf (leaf.constraints.allowedParams.get "amount_minor")).bind intOf).getD 0

/-- What was charged to the budget. -/
def spentMinor (b : BudgetRule) (log : List Request) : ℤ := ((chargedTo b log).map amountMinor).sum

/-- The budget's limits respect what was charged. -/
structure Within (b : BudgetRule) (log : List Request) : Prop where
  minor : ∀ m, intOf b.maxAmountMinor = some m → spentMinor b log ≤ m
  calls : ∀ n, b.maxCalls.bind intOf = some n → ((chargedTo b log).length : ℤ) ≤ n
  nonneg : ∀ r ∈ chargedTo b log, 0 ≤ amountMinor r

/-! ### What a reservation does -/

/-- What an entry that passes the checks has become. -/
structure Passed (record : LedgerRecord) (current after : Entry) : Prop where
  calls : after.calls = plus current.calls (.ofInt 1)
  minor : after.minor = plus current.minor record.minor
  expiry : after.expiry = record.expiry
  maxCalls : ∀ n, record.maxCalls = some n → lessThan n after.calls = false
  minorLimit : ∀ n, record.minorLimit = some n → lessThan n after.minor = false

section Reservations
variable {cfg : Config} {record : LedgerRecord} {current after : Entry} {now : ℚ} {amount : Double}
  {chain : List Claims} {s s' : State} {b : BudgetRule}

theorem passed_of_pending (h : pending record current now amount = .ok after) :
    Passed record current after := by
  obtain ⟨usd, -, h⟩ := bind_eq_ok.mp h
  obtain ⟨hcalls, h⟩ := raiseIf_bind_eq_ok.mp h
  obtain ⟨exceeds, -, h⟩ := bind_eq_ok.mp h
  obtain ⟨-, h⟩ := raiseIf_bind_eq_ok.mp h
  obtain ⟨-, h⟩ := raiseIf_bind_eq_ok.mp h
  obtain ⟨hminor, h⟩ := raiseIf_bind_eq_ok.mp h
  rw [pure_eq_ok] at h
  subst h
  exact ⟨rfl, rfl, rfl, UsageTracker.any_eq_false.mp hcalls, UsageTracker.any_eq_false.mp hminor⟩

/-- The entries of a reservation that returns. -/
theorem entries_of_ok {recs : List LedgerRecord} {entries : List (Units × Entry)}
    (h : recs.mapM (pendingEntry s now amount) = .ok entries) :
    entries.map Prod.fst = recs.map LedgerRecord.key ∧ ∀ r ∈ recs, ∃ e, (r.key, e) ∈ entries ∧
      Passed r (s.get r.key) e := by
  induction recs generalizing entries with
  | nil =>
      rw [List.mapM_nil, pure_eq_ok] at h
      rw [← h]
      exact ⟨rfl, fun _ hr => absurd hr List.not_mem_nil⟩
  | cons r recs ih =>
      rw [List.mapM_cons] at h
      obtain ⟨p, hp, h⟩ := bind_eq_ok.mp h
      obtain ⟨rest, hrest, h⟩ := bind_eq_ok.mp h
      obtain ⟨e, he, hpair⟩ := bind_eq_ok.mp hp
      obtain ⟨hkeys, hall⟩ := ih hrest
      rw [← pure_eq_ok.mp h, ← pure_eq_ok.mp hpair]
      refine ⟨by rw [List.map_cons, List.map_cons, hkeys], List.forall_mem_cons.mpr ⟨?_, ?_⟩⟩
      · exact ⟨e, List.mem_cons_self, passed_of_pending he⟩
      · intro r' hr'
        obtain ⟨e', hmem, hpassed⟩ := hall r' hr'
        exact ⟨e', List.mem_cons_of_mem _ hmem, hpassed⟩

/-- What a call does under a budget's key: it charges it, or leaves it but for what expired. -/
inductive Charged (cfg : Config) (b : BudgetRule) (r : Request) (s s' : State) : Prop
  | charges (minor : Double) (e : Entry)
      (hdeclared : r.chain.getLast?.bind (·.constraints.sharedBudget) = some b.id)
      (hlive : reached b.expiresAt r.now = false)
      (hminor : ∃ leaf, r.chain.getLast? = some leaf ∧
        numberOf (leaf.constraints.allowedParams.get "amount_minor") = some minor)
      (hsafe : safe minor = true)
      (hs' : s' (ledgerKey "budget" b.id) = some e)
      (hpassed : Passed (b.record minor) (s.get (ledgerKey "budget" b.id)) e)
  | leaves (hdeclared : r.chain.getLast?.bind (·.constraints.sharedBudget) ≠ some b.id)
      (hs' : s' (ledgerKey "budget" b.id) = s.unexpired r.now (ledgerKey "budget" b.id))

/-- The records of a chain whose last token declares a budget pin a safe amount. -/
theorem safe_of_records {recs : List LedgerRecord} {leaf : Claims}
    (h : records cfg chain now = .ok recs) (hleaf : chain.getLast? = some leaf)
    (hdeclared : leaf.constraints.sharedBudget ≠ none) :
    ∃ minor, numberOf (leaf.constraints.allowedParams.get "amount_minor") = some minor ∧
      safe minor = true := by
  obtain ⟨hchain, h⟩ := raiseIf_bind_eq_ok.mp h
  obtain ⟨tokens, -, h⟩ := bind_eq_ok.mp h
  rw [not_or] at hchain
  obtain ⟨root, hroot⟩ := Option.ne_none_iff_exists'.mp (mt List.head?_eq_none_iff.mp hchain.1)
  rw [hroot, hleaf] at h
  simp only [hdeclared, false_and, if_false] at h
  obtain ⟨r, hr, -⟩ := bind_eq_ok.mp h
  obtain ⟨rule, -, hr⟩ := bind_eq_ok.mp hr
  obtain ⟨-, hr⟩ := raiseIf_bind_eq_ok.mp hr
  obtain ⟨-, hr⟩ := raiseIf_bind_eq_ok.mp hr
  obtain ⟨hsafe, -⟩ := raiseIf_bind_eq_ok.mp hr
  rw [Bool.not_eq_true', Bool.not_eq_false] at hsafe
  generalize leaf.constraints.allowedParams.get "amount_minor" = value at hsafe ⊢
  cases value with
  | scalar w =>
      cases w with
      | number d => exact ⟨d, rfl, hsafe⟩
      | _ => cases hsafe
  | _ => cases hsafe

/-- The budgets of a configuration are told apart by their ids. -/
theorem rule_unique {rule : BudgetRule} (hrule : rule ∈ cfg.rules) (hb : b ∈ cfg.rules)
    (hid : rule.id = b.id) : rule = b := List.inj_on_of_nodup_map cfg.unique hrule hb hid

theorem rule?_some {id : Units} {rule : BudgetRule} (h : cfg.rule? id = some rule) :
    rule ∈ cfg.rules ∧ rule.id = id := by
  rw [Config.rule?] at h
  exact ⟨List.mem_of_find?_eq_some h, by simpa using List.find?_some h⟩

/-- The keys of a chain's records are distinct. -/
theorem Recorded.keys_nodup {recs : List LedgerRecord} (h : Recorded cfg chain now recs) :
    (recs.map LedgerRecord.key).Nodup := by
  have htokens : ((chain.map tokenRecord).map LedgerRecord.key).Nodup := by
    have hkeys : (chain.map tokenRecord).map LedgerRecord.key =
        (chain.map (·.jti)).map (ledgerKey "token") := by
      rw [List.map_map, List.map_map]
      rfl
    rw [hkeys]
    exact h.distinct.map fun _ _ heq => ledgerKey_inj heq
  obtain ⟨leaf, -, ⟨-, rfl⟩ | ⟨rule, minor, -, rfl⟩⟩ := h.budget
  · exact htokens
  · rw [List.map_append, List.nodup_append]
    refine ⟨htokens, List.nodup_singleton _, ?_⟩
    intro k hk k' hk' heq
    rw [List.map_map] at hk
    obtain ⟨claims, -, rfl⟩ := List.mem_map.mp hk
    rw [List.map_singleton, List.mem_singleton] at hk'
    exact tokenKey_ne_budgetKey claims.jti rule.id (heq.trans hk')

/-- A call that returns stores an entry that passes under the key of each of its records. -/
theorem reserved_of_ok (h : checkAndRecordChain cfg chain amount now s = (.ok (), s')) :
    ∃ recs entries, records cfg chain now = .ok recs ∧
      entries.map Prod.fst = recs.map LedgerRecord.key ∧
      (∀ r ∈ recs, ∃ e, (r.key, e) ∈ entries ∧ Passed r (s.get r.key) e) ∧
      s' = Store.updateAll (s.unexpired now) entries := by
  rw [checkAndRecordChain] at h
  cases hentries : pendingEntries cfg chain amount now s with
  | error e =>
      rw [hentries] at h
      cases (Prod.mk.inj h).1
  | ok entries =>
      rw [hentries] at h
      obtain ⟨-, hpending⟩ := raiseIf_bind_eq_ok.mp hentries
      obtain ⟨recs, hrecs, hmap⟩ := bind_eq_ok.mp hpending
      obtain ⟨hkeys, hall⟩ := entries_of_ok hmap
      exact ⟨recs, entries, hrecs, hkeys, hall, (Prod.mk.inj h).2.symm⟩

/-- **What a call that returns does under a budget's key.** -/
theorem charged_of_ok (hb : b ∈ cfg.rules)
    (h : checkAndRecordChain cfg chain amount now s = (.ok (), s')) :
    Charged cfg b ⟨chain, amount, now⟩ s s' := by
  obtain ⟨recs, entries, hrecs, hkeys, hall, rfl⟩ := reserved_of_ok h
  have hrecorded := records_ok hrecs
  have hnodup : (entries.map Prod.fst).Nodup := by
    rw [hkeys]
    exact hrecorded.keys_nodup
  have htoken : ledgerKey "budget" b.id ∉ (chain.map tokenRecord).map LedgerRecord.key := by
    rw [List.map_map]
    intro hmem
    obtain ⟨claims, -, heq⟩ := List.mem_map.mp hmem
    exact tokenKey_ne_budgetKey claims.jti b.id heq
  obtain ⟨leaf, hleaf, ⟨hnone, rfl⟩ | ⟨rule, minor, hcharge, rfl⟩⟩ := hrecorded.budget
  · refine .leaves ?_ (Store.updateAll_of_not_mem _ _ ?_)
    · rw [hleaf, Option.bind_some, hnone]
      exact (Option.some_ne_none _).symm
    · rw [hkeys]
      exact htoken
  · obtain ⟨id, hid, hrule⟩ := Option.bind_eq_some_iff.mp hcharge.declared
    obtain ⟨hmem, hruleid⟩ := rule?_some hrule
    by_cases hsame : rule.id = b.id
    · obtain rfl := rule_unique hmem hb hsame
      have hdeclared : leaf.constraints.sharedBudget ≠ none := by
        rw [hid]
        exact Option.some_ne_none id
      obtain ⟨d, hd, hsafe⟩ := safe_of_records hrecs hleaf hdeclared
      have hminor : minor = d := by rw [hcharge.minor, hd, Option.getD_some]
      obtain ⟨e, hentry, hpassed⟩ := hall (rule.record minor) (by simp)
      refine .charges d e ?_ hcharge.live ⟨leaf, hleaf, hd⟩ hsafe
        (Store.updateAll_of_mem _ hnodup hentry) ?_
      · rw [hleaf, Option.bind_some, hid, hruleid]
      · rw [← hminor]
        exact hpassed
    · refine .leaves ?_ (Store.updateAll_of_not_mem _ _ ?_)
      · rw [hleaf, Option.bind_some, hid, ← hruleid]
        exact fun heq => hsame (Option.some.inj heq)
      · rw [hkeys, List.map_append, List.mem_append, not_or]
        refine ⟨htoken, ?_⟩
        intro hbudget
        exact hsame (ledgerKey_inj (List.mem_singleton.mp hbudget)).symm

end Reservations

/-! ### Runs -/

/-- Until the budget expires at `e`, its entry accounts for what was charged. -/
structure Conserved (b : BudgetRule) (e now : ℚ) (s : State) (log : List Request) : Prop where
  within : Within b log
  expiry : ∀ u, s (ledgerKey "budget" b.id) = some u → u.expiry = b.expiresAt
  minor : now < e → (s.get (ledgerKey "budget" b.id)).minor.value? = some (spentMinor b log : ℚ)
  calls : now < e → (s.get (ledgerKey "budget" b.id)).calls.value? =
    some ((min (chargedTo b log).length (2 ^ 53) : ℕ) : ℚ)

section Runs
variable {cfg : Config} {b : BudgetRule} {e now : ℚ} {s s' : State} {log : List Request}
  {r : Request} {d : Double}

/-- A safe number that is not negative. -/
theorem exists_nonneg_of_safe (h : safe d = true) : ∃ k : ℤ, d.value? = some (k : ℚ) ∧ 0 ≤ k ∧ k < 2 ^ 53 := by
  rw [safe, Bool.and_eq_true, Bool.not_eq_true'] at h
  obtain ⟨k, hk, habs⟩ := exists_int_of_safe h.1
  have hle : lessThan d (.ofInt 0) = false := h.2
  rw [lessThan_value hk UsageTracker.value_zero, decide_eq_false_iff_not, not_lt] at hle
  exact ⟨k, hk, by exact_mod_cast hle, (abs_lt.mp habs).2⟩

/-- The limits of a budget. -/
theorem rule_limits (b : BudgetRule) :
    (∃ m : ℤ, b.maxAmountMinor.value? = some (m : ℚ) ∧ 0 ≤ m ∧ m < 2 ^ 53) ∧
    (∃ k : ℤ, b.expiresAt.value? = some (k : ℚ)) ∧
    ∀ d, b.maxCalls = some d → ∃ n, UsageTracker.Counting d n := by
  have hv := b.valid
  simp only [RuleFields.valid, Bool.and_eq_true, positive] at hv
  obtain ⟨⟨⟨-, hmax⟩, hexpires⟩, hcalls⟩ := hv
  obtain ⟨k, hk, -⟩ := exists_nonneg_of_safe hexpires.1
  refine ⟨exists_nonneg_of_safe hmax, ⟨k, hk⟩, ?_⟩
  intro d hd
  rw [hd, Option.all_some, positive, Bool.and_eq_true] at hcalls
  obtain ⟨n, hn, hle, hlt⟩ := exists_nonneg_of_safe hcalls.1
  have hne : n ≠ 0 := by
    rintro rfl
    have hzero := hcalls.2
    rw [hn] at hzero
    simp at hzero
  exact ⟨n, hn, by omega, hlt⟩

theorem chargedTo_append (log log' : List Request) :
    chargedTo b (log ++ log') = chargedTo b log ++ chargedTo b log' := List.filter_append ..

theorem Within.empty (b : BudgetRule) : Within b [] := by
  obtain ⟨⟨m, hm, hnonneg, -⟩, -, hcalls⟩ := rule_limits b
  refine ⟨fun k hk => ?_, fun n hn => ?_, fun r hr => absurd hr List.not_mem_nil⟩
  · rw [intOf_value hm, Option.some.injEq] at hk
    exact hk ▸ hnonneg
  · obtain ⟨d, -, hd⟩ := UsageTracker.counting_of_limit hcalls hn
    exact zero_le_one.trans hd.positive

theorem Conserved.empty (b : BudgetRule) (e now : ℚ) : Conserved b e now (fun _ => none) [] where
  within := .empty b
  expiry _ hu := absurd hu (Option.some_ne_none _).symm
  minor _ := UsageTracker.value_zero
  calls _ := UsageTracker.value_zero

theorem chargedTo_snoc (log : List Request)
    (hdeclared : r.chain.getLast?.bind (·.constraints.sharedBudget) = some b.id) :
    chargedTo b (log ++ [r]) = chargedTo b log ++ [r] := by
  rw [chargedTo_append]
  simp only [chargedTo, List.filter_cons, hdeclared, decide_true, if_true, List.filter_nil]

/-- A sum that passes the check is within the limit, and exact. -/
theorem Passed.sum {record : LedgerRecord} {current u : Entry} (h : Passed record current u)
    {limit : Double} {m n k : ℤ} (hlimit : record.minorLimit = some limit)
    (hm : limit.value? = some (m : ℚ)) (hm0 : 0 ≤ m) (hmlt : m < 2 ^ 53)
    (hn : current.minor.value? = some (n : ℚ)) (hn0 : 0 ≤ n) (hnm : n ≤ m)
    (hk : record.minor.value? = some (k : ℚ)) (hk0 : 0 ≤ k) (hklt : k < 2 ^ 53) :
    n + k ≤ m ∧ u.minor.value? = some ((n + k : ℤ) : ℚ) := by
  have hsum : u.minor = nearestTo ((n + k : ℤ) : ℚ) := by
    rw [h.minor, plus, hn, hk]
    push_cast
    rfl
  have hle : n + k ≤ m := by
    obtain ⟨y, hy, hiff⟩ := small_lt_nearestTo_iff (k := m) (n := n + k)
      (by rw [abs_of_nonneg hm0]; exact hmlt)
      (by rw [abs_of_nonneg (by omega)]; omega)
    have hcheck := h.minorLimit limit hlimit
    rw [hsum, lessThan_value hm hy, decide_eq_false_iff_not, hiff, not_lt] at hcheck
    exact hcheck
  refine ⟨hle, ?_⟩
  rw [hsum]
  apply nearestTo_intCast
  rw [abs_of_nonneg (by omega)]
  omega

/-- A charge that passes the checks is within the limits, and the sums are exact. -/
theorem Conserved.charge (h : Conserved b e now s log) (hnow : now ≤ r.now)
    (he : b.expiresAt.value? = some e) {minor : Double} {u : Entry}
    (hdeclared : r.chain.getLast?.bind (·.constraints.sharedBudget) = some b.id)
    (hlive : reached b.expiresAt r.now = false)
    (hminor : ∃ leaf, r.chain.getLast? = some leaf ∧
      numberOf (leaf.constraints.allowedParams.get "amount_minor") = some minor)
    (hsafe : safe minor = true) (hs' : s' (ledgerKey "budget" b.id) = some u)
    (hpassed : Passed (b.record minor) (s.get (ledgerKey "budget" b.id)) u) :
    Conserved b e r.now s' (log ++ [r]) := by
  obtain ⟨⟨m, hm, hm0, hmlt⟩, -, hcounting⟩ := rule_limits b
  obtain ⟨k, hk, hk0, hklt⟩ := exists_nonneg_of_safe hsafe
  rw [UsageTracker.reached_value he, decide_eq_false_iff_not, not_le] at hlive
  have hbefore := hnow.trans_lt hlive
  have hnew := chargedTo_snoc log hdeclared
  have hamount : amountMinor r = k := by
    obtain ⟨leaf, hleaf, hnumber⟩ := hminor
    rw [amountMinor, hleaf, Option.bind_some, hnumber, Option.bind_some, intOf_value hk,
      Option.getD_some]
  have hspent : spentMinor b (log ++ [r]) = spentMinor b log + k := by
    rw [spentMinor, hnew, List.map_append, List.sum_append, List.map_singleton,
      List.sum_singleton, hamount]
    rfl
  have hold : spentMinor b log ≤ m := h.within.minor m (intOf_value hm)
  have hspent0 : 0 ≤ spentMinor b log := List.sum_nonneg fun q hq => by
    obtain ⟨x, hx, rfl⟩ := List.mem_map.mp hq
    exact h.within.nonneg x hx
  obtain ⟨hle, hexact⟩ := hpassed.sum rfl hm hm0 hmlt (h.minor hbefore) hspent0 hold hk hk0 hklt
  have hcount : u.calls.value? = some ((min ((chargedTo b log).length + 1) (2 ^ 53) : ℕ) : ℚ) := by
    rw [hpassed.calls, UsageTracker.value_plus_one (h.calls hbefore) (min_le_right _ _)]
    congr 2
    omega
  have hget : s'.get (ledgerKey "budget" b.id) = u := by
    rw [State.get, hs', Option.getD_some]
  refine ⟨⟨?_, ?_, ?_⟩, ?_, fun _ => ?_, fun _ => ?_⟩
  · intro m' hm'
    rw [intOf_value hm, Option.some.injEq] at hm'
    rw [hspent, ← hm']
    exact hle
  · intro n hn
    obtain ⟨d, hd, hlimit⟩ := UsageTracker.counting_of_limit hcounting hn
    have hcheck := UsageTracker.le_of_not_lessThan hlimit.value hcount (hpassed.maxCalls d hd)
    have hlt := hlimit.safe
    rw [hnew, List.length_append, List.length_singleton]
    push_cast at hcheck ⊢
    omega
  · rw [hnew]
    intro x hx
    rcases List.mem_append.mp hx with hx | hx
    · exact h.within.nonneg x hx
    · rw [List.mem_singleton.mp hx, hamount]
      exact hk0
  · intro v hv
    obtain rfl := Option.some.inj (hs'.symm.trans hv)
    exact hpassed.expiry
  · rw [hget, hspent, hexact]
  · rw [hget, hnew, List.length_append, List.length_singleton, hcount]

theorem Conserved.later (h : Conserved b e now s log) {now' : ℚ} (hnow : now ≤ now') :
    Conserved b e now' s log where
  within := h.within
  expiry := h.expiry
  minor hlive := h.minor (hnow.trans_lt hlive)
  calls hlive := h.calls (hnow.trans_lt hlive)

/-- A call that charges another budget, or none, leaves the entry until it expires. -/
theorem Conserved.leave (h : Conserved b e now s log) (hnow : now ≤ r.now)
    (he : b.expiresAt.value? = some e)
    (hdeclared : r.chain.getLast?.bind (·.constraints.sharedBudget) ≠ some b.id)
    (hs' : s' (ledgerKey "budget" b.id) = s.unexpired r.now (ledgerKey "budget" b.id)) :
    Conserved b e r.now s' (log ++ [r]) := by
  have hsame : chargedTo b (log ++ [r]) = chargedTo b log := by
    rw [chargedTo_append]
    simp only [chargedTo, List.filter_cons, hdeclared, decide_false, Bool.false_eq_true, if_false,
      List.filter_nil, List.append_nil]
  have hspent : spentMinor b (log ++ [r]) = spentMinor b log := by rw [spentMinor, hsame, spentMinor]
  have hget : r.now < e → s'.get (ledgerKey "budget" b.id) = s.get (ledgerKey "budget" b.id) := by
    intro hlive
    rw [State.get, hs', State.unexpired, State.get]
    cases hs : s (ledgerKey "budget" b.id) with
    | none => rfl
    | some u =>
        have hkept : reached u.expiry r.now = false := by
          rw [h.expiry u hs, UsageTracker.reached_value he, decide_eq_false (not_le.mpr hlive)]
        rw [Option.filter_some, hkept]
        rfl
  refine ⟨⟨?_, ?_, ?_⟩, ?_, fun hlive => ?_, fun hlive => ?_⟩
  · rw [hspent]
    exact h.within.minor
  · rw [hsame]
    exact h.within.calls
  · rw [hsame]
    exact h.within.nonneg
  · intro u hu
    rw [hs', State.unexpired] at hu
    exact h.expiry u (Option.filter_eq_some_iff.mp hu).1
  · rw [hget hlive, hspent]
    exact h.minor (hnow.trans_lt hlive)
  · rw [hget hlive, hsame]
    exact h.calls (hnow.trans_lt hlive)

/-- **One call keeps the budget's account.** -/
theorem Conserved.step (hb : b ∈ cfg.rules) (he : b.expiresAt.value? = some e)
    (h : Conserved b e now s log) (r : Request) (hnow : now ≤ r.now) :
    Conserved b e r.now (BudgetUsageTracker.step cfg s r).2
      (log ++ (BudgetUsageTracker.step cfg s r).1.toList) := by
  rw [BudgetUsageTracker.step]
  cases hres : checkAndRecordChain cfg r.chain r.amount r.now s with
  | mk result s' =>
      cases result with
      | error e =>
          have hsame : s' = s := by
            rw [checkAndRecordChain] at hres
            cases hentries : pendingEntries cfg r.chain r.amount r.now s with
            | error e' =>
                rw [hentries] at hres
                exact (Prod.mk.inj hres).2.symm
            | ok entries =>
                rw [hentries] at hres
                cases (Prod.mk.inj hres).1
          rw [hsame, Option.toList_none, List.append_nil]
          exact h.later hnow
      | ok u =>
          rw [Option.toList_some]
          cases charged_of_ok hb hres with
          | charges minor u hdeclared hlive hminor hsafe hs' hpassed =>
              exact h.charge hnow he hdeclared hlive hminor hsafe hs' hpassed
          | leaves hdeclared hs' => exact h.leave hnow he hdeclared hs'

/-- **In every run the calls that charge a budget stay within its limits.** -/
theorem budgets_hold (cfg : Config) {b : BudgetRule} (hb : b ∈ cfg.rules) (requests : List Request)
    (hclock : (requests.map Request.now).Pairwise (· ≤ ·)) :
    Within b (Runs.log (BudgetUsageTracker.step cfg) (fun _ => none) requests) := by
  obtain ⟨-, ⟨k, hk⟩, -⟩ := rule_limits b
  have hrun := Runs.log_invariant (Conserved b k)
    (fun _ _ _ r hinv _ hnow => hinv.step hb hk r hnow) (Conserved.empty b k) requests
    (Runs.along_true (BudgetUsageTracker.step cfg) _ requests) hclock
  exact hrun.within

end Runs

/-! ### A sample -/

/-- One hundred minor units for an agent. -/
def sampleFields : RuleFields where
  id := lit "team"
  issuers := [lit "agent"]
  currency := lit "EUR"
  maxAmountMinor := .ofInt 100
  expiresAt := .ofInt 2000

theorem valid_sampleFields : sampleFields.valid = true := by decide +kernel

theorem nodup_sampleFields : ([⟨sampleFields, valid_sampleFields⟩].map fun r : BudgetRule => r.id).Nodup :=
  List.nodup_singleton _

def sampleConfig : Config := ⟨[⟨sampleFields, valid_sampleFields⟩], true, nodup_sampleFields⟩

/-- A token that pins sixty minor units. -/
def samplePayment (jti : Units) : Claims where
  iss := lit "agent"
  sub := lit "server"
  jti := jti
  capabilities := [lit "pay"]
  iat := .ofInt 1000
  exp := .ofInt 1010
  constraints := {
    allowedParams := [(lit "budget_id", .str (lit "team")),
      (lit "amount_minor", .scalar (.number (.ofInt 60))), (lit "currency", .str (lit "EUR"))]
    sharedBudget := some (lit "team") }
  dlg := none
  prf := none

/-- Two payments. -/
def sampleRequests : List Request :=
  [⟨[samplePayment (lit "j1")], .ofInt 0, 1001⟩, ⟨[samplePayment (lit "j2")], .ofInt 0, 1002⟩]

set_option maxRecDepth 100000 in
theorem budgets_hold_sample :
    Within ⟨sampleFields, valid_sampleFields⟩
      (Runs.log (BudgetUsageTracker.step sampleConfig) (fun _ => none) sampleRequests) ∧
    (Runs.log (BudgetUsageTracker.step sampleConfig) (fun _ => none) sampleRequests).length = 1 :=
  ⟨budgets_hold sampleConfig List.mem_cons_self sampleRequests (by decide +kernel), by decide +kernel⟩

end BudgetUsageTracker
end SwarmAuth.Node
