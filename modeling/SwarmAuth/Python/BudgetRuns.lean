import SwarmAuth.Python.Budgets

/-!
# Runs on the budget ledger

What holds of the accepted calls of any run that shares one `BudgetUsageTracker`. Budgets
are conserved: a budget's entry lives as long as the budget, so its counters account for
every charge. Token allowances are kept only while no reservation under a token's `jti`
shortens the entry's life or drops its timestamps: `_pending` writes both anew from the
token it charges.

## Main definitions

* `Lawful`, `chargedTo` — what an accepted call owes its budget, and the calls it charges.
* `budgets_conserved` — no run passes a budget's limits.
* `Undisturbed`, `allowances_hold_of_undisturbed` — when a token's allowance holds.
* `allowance_overrun` — a run in which it does not.
-/
namespace SwarmAuth.Python.BudgetUsageTracker

open Allowance (Charge Covers Charged Retains Admits Respects)

section Runs
variable {ed : SignatureCheck} {cfg : Config}

/-- The tracker reserves the whole verified chain. -/
theorem reserve_chain (cfg : Config) (claims : CapabilityClaims) (amount : Value) (now : ℚ)
    (s : State) :
    (∃ e, (tracker cfg).reserve claims amount now s = (.error e, s)) ∨
      (tracker cfg).reserve claims amount now s =
        checkAndRecordChain cfg (verifiedChain claims) amount now s := by
  simp only [Tracker.reserve, verifiedChain]
  rcases hp : parentOf claims with e | parent
  · exact Or.inl ⟨e, rfl⟩
  · right
    cases parent with
    | none => rfl
    | some parent => simp [tracker]

/-- A step either leaves the ledger alone, or it makes one reservation, of the verified
chain. -/
theorem callStep_ledger (ed : SignatureCheck) (cfg : Config) (s : State) (c : Call) :
    callStep ed (some (tracker cfg)) s c = (none, s) ∨
      ∃ claims x recs s', verify ed c.verifyOptions c.token c.verifyTime c.parentTime = .ok claims ∧
        checkCall c true true claims = .ok x ∧
        (tracker cfg).reserve claims (.scalar (.float (.finite false x))) c.reserveTime s = (.ok (), s') ∧
        Recorded cfg (verifiedChain claims) c.reserveTime recs ∧ Reserved recs x c.reserveTime s s' ∧
        (callStep ed (some (tracker cfg)) s c = (none, s') ∨
          callStep ed (some (tracker cfg)) s c = (some ⟨c, claims⟩, s')) := by
  rcases callStep_cases ed (tracker cfg) s c with
    hstep | ⟨claims, x, r, s', hv, hcheck, hreserve, hstep⟩
  · exact Or.inl hstep
  rcases reserve_chain cfg claims (.scalar (.float (.finite false x))) c.reserveTime s with
    ⟨e, herr⟩ | hchain
  · obtain ⟨rfl, rfl⟩ := Prod.mk.inj (hreserve.symm.trans herr)
    rcases hstep with hstep | ⟨hr, -⟩
    · exact Or.inl hstep
    · exact absurd hr error_ne_ok
  have hrecord := hchain.symm.trans hreserve
  rcases checkAndRecordChain_cases hrecord with ⟨hne, rfl⟩ | ⟨y, recs, rfl, hy, -, hrec, hres⟩
  · rcases hstep with hstep | ⟨hr, -⟩
    · exact Or.inl hstep
    · exact absurd hr hne
  obtain rfl := Except.ok.inj (hy.symm.trans (validatedAmount_float x))
  refine Or.inr ⟨claims, y, recs, s', hv, hcheck, hreserve, hrec, hres, ?_⟩
  rcases hstep with hstep | ⟨-, hstep⟩
  · exact Or.inl hstep
  · exact Or.inr hstep

/-! ## Budgets -/

/-- The number a value is. -/
def number? : Value → Option ℚ
  | .scalar w =>
      match w.denote with
      | some (.inl q) => some q
      | _ => none
  | _ => none

/-- `params[key]` of an accepted call. -/
def param (a : Accepted) (key : Units) : Option Value := a.call.params.bind fun d => Dict.get? d key

/-- The number `params["amount_minor"]`. -/
def amountMinor (a : Accepted) : Option ℚ := (param a "amount_minor").bind number?

/-- The accepted calls whose executing token declares the budget. -/
def chargedTo (b : BudgetRule) (log : List Accepted) : List Accepted :=
  log.filter fun a => a.claims.constraints.sharedBudget = some b.id

/-- What an accepted call owes the budget it charges. -/
structure Lawful (b : BudgetRule) (a : Accepted) : Prop where
  amount : ∃ q, amountMinor a = some q ∧ 0 ≤ q
  unexpired : a.call.reserveTime < b.expiresAt
  currency : param a "currency" = some (.str b.currency)
  issuer : ∃ root, (verifiedChain a.claims).head? = some root ∧ root.iss ∈ b.issuers

/-- A value equal to a safe minor amount is that amount. -/
theorem number?_of_safeMinor {v pin : Value} {minor : ℤ} (hpin : safeMinor (some pin) = some minor)
    (hv : jsonValueEqual v pin = true) : number? v = some (minor : ℚ) ∧ 0 ≤ minor := by
  -- a scalar equal to a number denotes that number
  have hscalar : ∀ (w u : Scalar) (q : ℚ), u.denote = some (.inl q) → scalarEqual w u = true →
      number? (.scalar w) = some q := by
    intro w u q hu hw
    cases w <;> cases u <;> simp_all [scalarEqual, number?, Scalar.denote]
  cases pin with
  | scalar u =>
      cases v with
      | scalar w =>
          rw [jsonValueEqual] at hv
          cases u with
          | int n =>
              simp only [safeMinor] at hpin
              split_ifs at hpin with hn
              obtain rfl := Option.some.inj hpin
              exact ⟨hscalar w (.int n) n rfl hv, hn.1⟩
          | float d =>
              simp only [safeMinor] at hpin
              split at hpin
              · next q hq =>
                  split_ifs at hpin with hn
                  obtain rfl := Option.some.inj hpin
                  have hden : d.denote = some (.inl q) := by
                    cases d <;> simp_all [Double.value?, Double.denote]
                  have hnum : ((q.num : ℤ) : ℚ) = q := by
                    rw [← Rat.num_div_den q, hn.2.2]
                    simp
                  refine ⟨?_, Rat.num_nonneg.mpr hn.1⟩
                  rw [hnum]
                  exact hscalar w (.float d) q hden hv
              · simp at hpin
          | none => simp [safeMinor] at hpin
          | bool b => simp [safeMinor] at hpin
      | str s => simp [jsonValueEqual] at hv
      | arr items => simp [jsonValueEqual] at hv
      | obj members => simp [jsonValueEqual] at hv
  | str s => simp [safeMinor] at hpin
  | arr items => simp [safeMinor] at hpin
  | obj members => simp [safeMinor] at hpin

/-- The pins bind the parameters of the call to what the budget is charged. -/
theorem lawful_of_charge {c : Call} {claims root : CapabilityClaims} {x : Binary64}
    {rule : BudgetRule} {minor : ℤ} (hcheck : checkCall c true true claims = .ok x)
    (hroot : (verifiedChain claims).head? = some root)
    (hcharge : BudgetCharge cfg root claims c.reserveTime rule minor) :
    Lawful rule ⟨c, claims⟩ ∧ amountMinor ⟨c, claims⟩ = some (minor : ℚ) := by
  obtain ⟨hgiven, hparams, -, -⟩ := checkCall_ok hcheck
  have hne : claims.constraints.allowedParams ≠ [] := by
    intro hnil
    have hcurrency := hcharge.currency
    rw [hnil] at hcurrency
    simp [Dict.get?] at hcurrency
  obtain ⟨d, hd⟩ := Option.ne_none_iff_exists'.mp (hgiven hne)
  have hbound : ∀ key pin, claims.constraints.allowedParams.get? key = some pin →
      ∃ v, param ⟨c, claims⟩ key = some v ∧ jsonValueEqual v pin = true := by
    intro key pin hpin
    have hpins := checkParams_ok.mp (hparams d hd) _ (Dict.mem_of_get? hpin)
    obtain ⟨v, hv, heq⟩ := pins_iff.mp hpins
    refine ⟨v, ?_, heq⟩
    rw [param, hd, Option.bind_some]
    exact hv
  have hamount : amountMinor ⟨c, claims⟩ = some (minor : ℚ) ∧ 0 ≤ minor := by
    have hminor := hcharge.minor
    cases hpin : claims.constraints.allowedParams.get? "amount_minor" with
    | none => simp [hpin, safeMinor] at hminor
    | some pin =>
        rw [hpin] at hminor
        obtain ⟨v, hv, heq⟩ := hbound _ pin hpin
        rw [amountMinor, hv, Option.bind_some]
        exact number?_of_safeMinor hminor heq
  have hcurrency : param ⟨c, claims⟩ "currency" = some (.str rule.currency) := by
    obtain ⟨v, hv, heq⟩ := hbound _ _ hcharge.currency
    rw [hv]
    cases v <;> simp_all [jsonValueEqual]
  exact ⟨⟨⟨minor, hamount.1, by exact_mod_cast hamount.2⟩, hcharge.live, hcurrency,
    ⟨root, hroot, hcharge.issuer⟩⟩, hamount.1⟩

/-- A reservation of a verified chain whose token declares a budget has the record of that
budget, and no other budget's. -/
theorem Recorded.budget_cases {claims : CapabilityClaims} {now : ℚ} {recs : List LedgerRecord}
    (hrec : Recorded cfg (verifiedChain claims) now recs) {b : BudgetRule} (hb : b ∈ cfg.rules) :
    (claims.constraints.sharedBudget = some b.id ∧ ∃ root minor,
        (verifiedChain claims).head? = some root ∧ BudgetCharge cfg root claims now b minor ∧
        b.record minor ∈ recs) ∨
      (claims.constraints.sharedBudget ≠ some b.id ∧
        ledgerKey "budget" b.id ∉ recs.map LedgerRecord.key) := by
  have htoken : ∀ chain : List CapabilityClaims,
      ledgerKey "budget" b.id ∉ (chain.map tokenRecord).map LedgerRecord.key := by
    intro chain hmem
    rw [List.map_map] at hmem
    obtain ⟨claims', -, hkey⟩ := List.mem_map.mp hmem
    exact tokenKey_ne_budgetKey _ _ hkey
  obtain ⟨root, leaf, hroot, hleaf, hcase⟩ := hrec.budget
  obtain rfl := Option.some.inj (hleaf.symm.trans (getLast?_verifiedChain claims))
  rcases hcase with ⟨hnone, rfl⟩ | ⟨rule, minor, hcharge, rfl⟩
  · right
    rw [hnone]
    exact ⟨nofun, htoken _⟩
  · by_cases hid : rule.id = b.id
    · left
      obtain rfl := Config.rule_unique hcharge.mem hb hid
      exact ⟨hcharge.declared, root, minor, hroot, hcharge, List.mem_append_right _ List.mem_cons_self⟩
    · right
      refine ⟨?_, ?_⟩
      · rw [hcharge.declared]
        intro heq
        exact hid (Option.some.inj heq)
      · rw [List.map_append, List.mem_append, not_or]
        refine ⟨htoken _, ?_⟩
        intro hmem
        have hkey := List.mem_singleton.mp hmem
        exact hid (ledgerKey_inj hkey).2.symm

/-- What the accepted calls charged to the budget. -/
def spentMinor (b : BudgetRule) (log : List Accepted) : ℚ :=
  ((chargedTo b log).map fun a => (amountMinor a).getD 0).sum

theorem chargedTo_append (b : BudgetRule) (log log' : List Accepted) :
    chargedTo b (log ++ log') = chargedTo b log ++ chargedTo b log' := List.filter_append ..

theorem spentMinor_append (b : BudgetRule) (log log' : List Accepted) :
    spentMinor b (log ++ log') = spentMinor b log + spentMinor b log' := by
  rw [spentMinor, chargedTo_append, List.map_append, List.sum_append]
  rfl

/-- The budget's entry lives as long as the budget, and accounts for every charge. -/
structure Conserved (b : BudgetRule) (now : ℚ) (s : State) (log : List Accepted) : Prop where
  expiry : ∀ e, s (ledgerKey "budget" b.id) = some e → e.expiry = b.expiresAt
  total : spentMinor b log ≤ b.maxAmountMinor
  number : ∀ n, b.maxCalls = some n → ((chargedTo b log).length : ℤ) ≤ n
  covered : now < b.expiresAt → spentMinor b log ≤ (s.get (ledgerKey "budget" b.id)).minor ∧
    (chargedTo b log).length ≤ (s.get (ledgerKey "budget" b.id)).calls

theorem get_of_some {s : State} {key : List ℕ} {e : Entry} (hs : s key = some e) : s.get key = e := by
  rw [State.get, hs, Option.getD_some]

variable {b : BudgetRule} {now : ℚ} {s : State} {log : List Accepted}

theorem Conserved.init (b : BudgetRule) (now : ℚ) : Conserved b now State.empty [] where
  expiry _ hs := nomatch hs
  total := by
    have hv := b.valid
    simp only [RuleFields.valid, Bool.and_eq_true, decide_eq_true_eq] at hv
    have hmax : 0 ≤ b.maxAmountMinor := hv.1.1.2.1
    show (0 : ℚ) ≤ b.maxAmountMinor
    exact_mod_cast hmax
  number n hn := by
    have hv := b.valid
    simp only [RuleFields.valid, Bool.and_eq_true, Option.all_eq_true] at hv
    have hpos := hv.2 n hn
    simp only [positiveSafe, Bool.and_eq_true, decide_eq_true_eq] at hpos
    show (0 : ℤ) ≤ n
    omega
  covered _ := ⟨le_rfl, le_rfl⟩

theorem Conserved.later (hcon : Conserved b now s log) {now' : ℚ} (hnow : now ≤ now') :
    Conserved b now' s log where
  expiry := hcon.expiry
  total := hcon.total
  number := hcon.number
  covered hlive := hcon.covered (hnow.trans_lt hlive)

/-- A charged entry accounts for the charge, whether the call is then accepted or not. -/
theorem Conserved.charge (hcon : Conserved b now s log) {s' : State} {x : Binary64} {minor : ℤ}
    (hlive : now < b.expiresAt) (hmin : 0 ≤ minor)
    (hallowed : Allowed (b.record minor) (s.get (ledgerKey "budget" b.id)) now x)
    (hs' : s' (ledgerKey "budget" b.id) =
      some ((b.record minor).after (s.get (ledgerKey "budget" b.id)) now x))
    {log' : List Accepted} (hlog' : log' = [] ∨ ∃ a, log' = [a] ∧
      a.claims.constraints.sharedBudget = some b.id ∧ amountMinor a = some (minor : ℚ)) :
    Conserved b now s' (log ++ log') := by
  obtain ⟨hspent, hcalls⟩ := hcon.covered hlive
  have hmin' : (0 : ℚ) ≤ minor := by exact_mod_cast hmin
  have hmax : ((s.get (ledgerKey "budget" b.id)).minor : ℚ) + minor ≤ b.maxAmountMinor := by
    exact_mod_cast hallowed.minor b.maxAmountMinor rfl
  have hbounds : spentMinor b (log ++ log') ≤ spentMinor b log + minor ∧
      (chargedTo b (log ++ log')).length ≤ (chargedTo b log).length + 1 := by
    rcases hlog' with rfl | ⟨a, rfl, hid, ha⟩
    · rw [List.append_nil]
      exact ⟨by linarith, Nat.le_succ _⟩
    · have hlist : chargedTo b [a] = [a] := by simp [chargedTo, hid]
      have hone : spentMinor b [a] = minor := by
        rw [spentMinor, hlist]
        simp [ha]
      rw [spentMinor_append, hone, chargedTo_append, List.length_append, hlist]
      exact ⟨le_rfl, le_rfl⟩
  refine ⟨?_, ?_, ?_, fun _ => ?_⟩
  · intro e he
    rw [hs'] at he
    rw [← Option.some.inj he]
    rfl
  · linarith [hbounds.1]
  · intro n hn
    have hadmits : ((s.get (ledgerKey "budget" b.id)).calls : ℤ) + 1 ≤ n :=
      hallowed.admits.calls n hn
    have hlength := hbounds.2
    omega
  · rw [get_of_some hs']
    refine ⟨?_, hbounds.2.trans (Nat.succ_le_succ hcalls)⟩
    show _ ≤ (((s.get (ledgerKey "budget" b.id)).minor + minor : ℤ) : ℚ)
    push_cast
    linarith [hbounds.1]

/-- A reservation that does not charge the budget leaves its entry while the budget lives. -/
theorem Conserved.other (hcon : Conserved b now s log) {s' : State}
    (hs' : s' (ledgerKey "budget" b.id) = s.unexpired now (ledgerKey "budget" b.id))
    {log' : List Accepted} (hlog' : chargedTo b log' = []) : Conserved b now s' (log ++ log') := by
  have hcharged : chargedTo b (log ++ log') = chargedTo b log := by
    rw [chargedTo_append, hlog', List.append_nil]
  have hspent : spentMinor b (log ++ log') = spentMinor b log := by
    rw [spentMinor, hcharged]
    rfl
  have hget : now < b.expiresAt →
      s'.get (ledgerKey "budget" b.id) = s.get (ledgerKey "budget" b.id) := by
    intro hlive
    rw [State.get, hs', State.get]
    cases he : s (ledgerKey "budget" b.id) with
    | none => simp [State.unexpired, he]
    | some e =>
        rw [unexpired_of_some he (by rw [hcon.expiry e he]; exact hlive)]
  refine ⟨?_, ?_, ?_, ?_⟩
  · intro e he
    rw [hs'] at he
    exact hcon.expiry e (unexpired_some he)
  · rw [hspent]
    exact hcon.total
  · rw [hcharged]
    exact hcon.number
  · intro hlive
    rw [hget hlive, hspent, hcharged]
    exact hcon.covered hlive

/-- A step keeps the budget's entry in step with the accepted calls that charge it. -/
theorem Conserved.callStep (hb : b ∈ cfg.rules) (hcon : Conserved b now s log) (c : Call)
    (hnow : now ≤ c.reserveTime) :
    Conserved b c.reserveTime (callStep ed (some (tracker cfg)) s c).2
      (log ++ (Python.callStep ed (some (tracker cfg)) s c).1.toList) := by
  have hlater := hcon.later hnow
  rcases callStep_ledger ed cfg s c with
    hstep | ⟨claims, x, recs, s', -, hcheck, -, hrec, hres, hstep⟩
  · rw [hstep]
    simpa using hlater
  rcases hrec.budget_cases hb with ⟨hid, root, minor, hroot, hcharge, hmem⟩ | ⟨hid, hkey⟩
  · -- the budget is charged
    obtain ⟨hlawful, hamount⟩ := lawful_of_charge hcheck hroot hcharge
    have hmin : 0 ≤ minor := by
      obtain ⟨q, hq, hpos⟩ := hlawful.amount
      rw [hamount, Option.some.injEq] at hq
      rw [← hq] at hpos
      exact_mod_cast hpos
    rcases hstep with hstep | hstep <;> rw [hstep] <;>
      refine hlater.charge hcharge.live hmin (hres.allowed _ hmem) (hres.charged _ hmem) ?_
    · exact Or.inl rfl
    · exact Or.inr ⟨_, rfl, hid, hamount⟩
  · -- another budget, or none
    rcases hstep with hstep | hstep <;> rw [hstep] <;> apply hlater.other (hres.same _ hkey)
    · rfl
    · simp [chargedTo, hid]

/-- An accepted call charges every budget its chain declares, and lawfully. -/
theorem accepted_lawful {calls : List Call} {a : Accepted}
    (ha : a ∈ accepted ed (some (tracker cfg)) .empty calls) {T : CapabilityClaims}
    (hT : T ∈ verifiedChain a.claims) {id : Units} (hid : T.constraints.sharedBudget = some id) :
    a.claims.constraints.sharedBudget = some id ∧ ∃ b ∈ cfg.rules, b.id = id ∧ Lawful b a := by
  obtain ⟨s, c, -, hlog⟩ := Runs.mem_log ha
  rcases callStep_ledger ed cfg s c with
    hstep | ⟨claims, x, recs, s', hv, hcheck, -, hrec, -, hstep | hstep⟩
  · rw [hstep] at hlog
    exact nomatch hlog
  · rw [hstep] at hlog
    exact nomatch hlog
  rw [hstep] at hlog
  obtain rfl := Option.some.inj hlog
  have hown : claims.constraints.sharedBudget = some id := by
    rcases attenuated_of_mem_verifiedChain hv hT with rfl | hatt
    · exact hid
    · exact hatt.notWider.limitsWithin.2.2.2 id hid
  obtain ⟨root, leaf, hroot, hleaf, hcase⟩ := hrec.budget
  obtain rfl := Option.some.inj (hleaf.symm.trans (getLast?_verifiedChain claims))
  rcases hcase with ⟨hnone, -⟩ | ⟨rule, minor, hcharge, -⟩
  · rw [hnone] at hown
    exact nomatch hown
  · refine ⟨hown, rule, hcharge.mem, ?_, (lawful_of_charge hcheck hroot hcharge).1⟩
    exact Option.some.inj (hcharge.declared.symm.trans hown)

/-- **Budgets are conserved.** In every run of calls that share one tracker, the accepted
calls of tokens that declare a budget stay within its amount and its number of calls, and
owe it what they must; and every budget declared in an accepted chain is charged. -/
theorem budgets_conserved (ed : SignatureCheck) (cfg : Config) (calls : List Call)
    (hclock : (calls.map Call.reserveTime).Pairwise (· ≤ ·)) :
    let log := accepted ed (some (tracker cfg)) .empty calls
    (∀ b ∈ cfg.rules,
      ((chargedTo b log).map fun a => (amountMinor a).getD 0).sum ≤ b.maxAmountMinor ∧
      (∀ n, b.maxCalls = some n → ((chargedTo b log).length : ℤ) ≤ n) ∧
      ∀ a ∈ chargedTo b log, Lawful b a) ∧
    ∀ a ∈ log, ∀ T ∈ verifiedChain a.claims, ∀ id, T.constraints.sharedBudget = some id →
      ∃ b ∈ cfg.rules, b.id = id ∧ a ∈ chargedTo b log := by
  intro log
  refine ⟨?_, ?_⟩
  · intro b hb
    have hrun := Runs.along_true (callStep ed (some (tracker cfg))) .empty calls
    have hcon := Runs.log_invariant (fun now s log => Conserved b now s log)
      (fun _ _ _ c hcon _ hnow => hcon.callStep hb c hnow) (Conserved.init b) calls hrun hclock
    refine ⟨hcon.total, hcon.number, ?_⟩
    intro a ha
    obtain ⟨hmem, hid⟩ := List.mem_filter.mp ha
    have hself : a.claims ∈ verifiedChain a.claims :=
      List.mem_of_getLast? (getLast?_verifiedChain a.claims)
    obtain ⟨-, b', hb', hid', hlawful⟩ := accepted_lawful hmem hself (of_decide_eq_true hid)
    rwa [Config.rule_unique hb hb' hid'.symm]
  · intro a ha T hT id hid
    obtain ⟨hown, b, hb, rfl, -⟩ := accepted_lawful ha hT hid
    exact ⟨b, hb, rfl, List.mem_filter.mpr ⟨ha, decide_eq_true hown⟩⟩

/-- A budget of 100 minor units. -/
def sampleBudget : BudgetRule :=
  ⟨{ id := "b1", issuers := ["agent"], currency := "USD", maxAmountMinor := 100, expiresAt := 5000 },
    by decide⟩

def sampleConfig : Config := ⟨[sampleBudget], true, List.nodup_singleton _⟩

/-- What a payment of 60 minor units is pinned to. -/
def samplePayment : Dict :=
  [(lit "amount_minor", .scalar (.int 60)), (lit "budget_id", .str "b1"),
    (lit "currency", .str "USD")]

/-- The claims of a fresh token for such a payment. -/
def samplePayer (jti : Units) : ClaimFields :=
  { sampleClaims.toClaimFields with
    jti := jti
    constraints := ⟨{ allowedParams := samplePayment, sharedBudget := some "b1" }, by decide, by decide⟩ }

/-- Two payments with fresh tokens; the budget covers one. -/
def sampleCalls : List Call :=
  [{ sampleCall ⟨samplePayer "j1", by decide⟩ 1005 with params := some samplePayment },
    { sampleCall ⟨samplePayer "j2", by decide⟩ 1006 with params := some samplePayment }]

set_option maxRecDepth 100000 in
theorem budgets_conserved_sample :
    (chargedTo sampleBudget (accepted sampleCheck (some (tracker sampleConfig)) .empty
      sampleCalls)).length = 1 ∧
    ((chargedTo sampleBudget (accepted sampleCheck (some (tracker sampleConfig)) .empty
      sampleCalls)).map fun a => (amountMinor a).getD 0).sum ≤ 100 :=
  ⟨by decide +kernel, ((budgets_conserved sampleCheck sampleConfig sampleCalls (by decide +kernel)).1
    sampleBudget (List.mem_singleton_self _)).1⟩

/-! ## Token allowances -/

/-- A reservation for `link` at `now` keeps what the entry `e` holds for the token: it does
not end the entry before the token, nor drop timestamps that the token's rate needs. -/
structure Keeps (T link : CapabilityClaims) (now : ℚ) (e : Entry) : Prop where
  expiry : min e.expiry (T.exp + retentionAfterExpSeconds) ≤ link.exp + retentionAfterExpSeconds
  stamps : T.constraints.rateLimitPerMin ≠ none → link.constraints.rateLimitPerMin = none →
    recentStamps e.timestamps now = []

/-- The call, if it reserves at all, keeps the live entry of a token that has been charged and
can be again. -/
def Undisturbed (ed : SignatureCheck) (cfg : Config) (T : CapabilityClaims) (log : List Accepted)
    (s : State) (c : Call) : Prop :=
  chargesTo T log ≠ [] → c.reserveTime < (T.exp + retentionAfterExpSeconds : ℤ) →
    ∀ claims x, verify ed c.verifyOptions c.token c.verifyTime c.parentTime = .ok claims →
      checkCall c true true claims = .ok x →
      ((tracker cfg).reserve claims (.scalar (.float (.finite false x))) c.reserveTime s).1 = .ok () →
      ∀ link ∈ verifiedChain claims, link.jti = T.jti →
        ∀ e, s (ledgerKey "token" T.jti) = some e → c.reserveTime < e.expiry →
          Keeps T link c.reserveTime e

/-- While the token can be charged, its entry accounts for the charges `h` to it and will
not be dropped. -/
structure Tracked (T : CapabilityClaims) (now : ℚ) (s : State) (h : List Charge) : Prop where
  fine : ∀ key e, s key = some e → -340 ≤ e.usd.decimal.exp
  respects : Respects 60 (allowance T) h
  covers : now < (T.exp + retentionAfterExpSeconds : ℤ) →
    Covers 60 exactBelow (allowance T) now (s.get (ledgerKey "token" T.jti)).record h
  retained : now < (T.exp + retentionAfterExpSeconds : ℤ) → h ≠ [] →
    ∃ e, s (ledgerKey "token" T.jti) = some e ∧ T.exp + retentionAfterExpSeconds ≤ e.expiry

variable {T link : CapabilityClaims} {h : List Charge} {e : Entry} {x : Binary64}

theorem fine_get (hfine : ∀ key e, s key = some e → -340 ≤ e.usd.decimal.exp) (key : List ℕ) :
    -340 ≤ (s.get key).usd.decimal.exp := by
  rw [State.get]
  cases hs : s key with
  | none => decide
  | some e => exact hfine key e hs

theorem record_nonneg (e : Entry) : 0 ≤ e.record.spent := Decimal.value_nonneg _

theorem Tracked.init (T : CapabilityClaims) (now : ℚ) : Tracked T now State.empty [] where
  fine _ _ hs := nomatch hs
  respects := Respects.nil (allowance_nonNeg T)
  covers _ := Covers.nil (record_nonneg _)
  retained _ hne := absurd rfl hne

theorem Tracked.later (htr : Tracked T now s h) {now' : ℚ} (hnow : now ≤ now') :
    Tracked T now' s h where
  fine := htr.fine
  respects := htr.respects
  covers hlive := (htr.covers (hnow.trans_lt hlive)).retain hnow Retains.refl
  retained hlive := htr.retained (hnow.trans_lt hlive)

/-- A new entry counts the charge, and its amount. -/
theorem min_le_spent_after (r : LedgerRecord) (hfine : -340 ≤ e.usd.decimal.exp) :
    min (e.record.spent + (chargeOf x now).amount) exactBelow ≤ (r.after e now x).record.spent := by
  show min (e.usd.decimal.value + (amountDecimal x).value) exactBelow ≤
    (decimalText (decimalSum e.usd.decimal x)).decimal.value
  rw [value_decimalText]
  exact min_le_value_decimalSum hfine x

/-- The token's own reservation has the charge on it. -/
theorem charged_after (T : CapabilityClaims) (hfine : -340 ≤ e.usd.decimal.exp) :
    Charged 60 exactBelow (allowance T) (chargeOf x now) e.record
      ((tokenRecord T).after e now x).record where
  calls := le_rfl
  spent := min_le_spent_after _ hfine
  stamps hl t ht := by
    have hrate : (tokenRecord T).rate.isSome = true := Option.isSome_iff_ne_none.mpr hl
    have hkeep : (recentStamps e.timestamps now).countP (fun s => t ≤ s) =
        e.timestamps.countP fun s => t ≤ s := countP_recentStamps ht
    simp only [Entry.record, LedgerRecord.after, hrate, if_true, List.countP_append, hkeep,
      List.countP_singleton, decide_eq_true_eq]
    exact le_rfl

/-- Any reservation that keeps the timestamps retains the record. -/
theorem retains_after (hkeeps : T.constraints.rateLimitPerMin ≠ none →
      link.constraints.rateLimitPerMin = none → recentStamps e.timestamps now = [])
    (hfine : -340 ≤ e.usd.decimal.exp) :
    Retains 60 exactBelow (allowance T) now e.record ((tokenRecord link).after e now x).record where
  calls := Nat.le_succ _
  spent := by
    refine le_trans (min_le_min_right exactBelow ?_) (min_le_spent_after _ hfine)
    exact le_add_of_nonneg_right (chargeOf_nonneg x now)
  stamps hl t ht := by
    have hkeep : (recentStamps e.timestamps now).countP (fun s => t ≤ s) =
        e.timestamps.countP fun s => t ≤ s := countP_recentStamps ht
    by_cases hrate : link.constraints.rateLimitPerMin = none
    · rw [hkeeps hl hrate] at hkeep
      exact hkeep.symm.trans_le (Nat.zero_le _)
    · have hsome : (tokenRecord link).rate.isSome = true := Option.isSome_iff_ne_none.mpr hrate
      simp only [Entry.record, LedgerRecord.after, hsome, if_true, List.countP_append, hkeep]
      exact Nat.le_add_right _ _

/-- The entry of a token that can be charged is not dropped. -/
theorem Tracked.unexpired (htr : Tracked T now s h) (hlive : now < (T.exp + retentionAfterExpSeconds : ℤ))
    (hne : h ≠ []) : s.unexpired now (ledgerKey "token" T.jti) = s (ledgerKey "token" T.jti) := by
  obtain ⟨e, he, hexp⟩ := htr.retained hlive hne
  have hexp' : ((T.exp + retentionAfterExpSeconds : ℤ) : ℚ) ≤ e.expiry := by exact_mod_cast hexp
  rw [unexpired_of_some he (hlive.trans_le hexp'), he]

/-- A reservation has a record of each token of its chain, and no other token's. -/
theorem Recorded.token_cases {chain : List CapabilityClaims} {recs : List LedgerRecord}
    (hrec : Recorded cfg chain now recs) :
    (∀ link ∈ chain, tokenRecord link ∈ recs) ∧
      ∀ jti, ledgerKey "token" jti ∈ recs.map LedgerRecord.key → ∃ link ∈ chain, link.jti = jti := by
  have htokens : ∀ jti, ledgerKey "token" jti ∈ (chain.map tokenRecord).map LedgerRecord.key →
      ∃ link ∈ chain, link.jti = jti := by
    intro jti hmem
    rw [List.map_map] at hmem
    obtain ⟨link, hlink, hkey⟩ := List.mem_map.mp hmem
    exact ⟨link, hlink, (ledgerKey_inj hkey).2⟩
  obtain ⟨root, leaf, -, -, ⟨-, rfl⟩ | ⟨rule, minor, -, rfl⟩⟩ := hrec.budget
  · exact ⟨fun link hlink => List.mem_map_of_mem hlink, htokens⟩
  · refine ⟨fun link hlink => List.mem_append_left _ (List.mem_map_of_mem hlink), ?_⟩
    intro jti hmem
    rw [List.map_append, List.mem_append] at hmem
    rcases hmem with hmem | hmem
    · exact htokens jti hmem
    · exact absurd (List.mem_singleton.mp hmem) (tokenKey_ne_budgetKey jti rule.id)

/-- A reservation that keeps the live entry keeps it in step, whether the token is charged
(`mine`) or not. -/
theorem Tracked.reserve (htr : Tracked T now s h) {chain : List CapabilityClaims}
    {recs : List LedgerRecord} {s' : State} (hrec : Recorded cfg chain now recs)
    (hres : Reserved recs x now s s')
    (hkeeps : h ≠ [] → now < (T.exp + retentionAfterExpSeconds : ℤ) → ∀ link ∈ chain,
      link.jti = T.jti → ∀ e, s (ledgerKey "token" T.jti) = some e → now < e.expiry →
        Keeps T link now e)
    (mine : Bool) (hmine : mine = true → T ∈ chain) :
    Tracked T now s' (h ++ if mine then [chargeOf x now] else []) := by
  have hfine := fine_get htr.fine
  have hown := hrec.token_cases.1
  have hfine' : ∀ key e, s' key = some e → -340 ≤ e.usd.decimal.exp := by
    intro key e he
    by_cases hmem : key ∈ recs.map LedgerRecord.key
    · obtain ⟨r, hr, rfl⟩ := List.mem_map.mp hmem
      rw [hres.charged r hr, Option.some.injEq] at he
      rw [← he]
      exact le_exp_decimalText (le_exp_decimalSum (hfine r.key) x)
    · rw [hres.same key hmem] at he
      exact htr.fine key e (unexpired_some he)
  cases mine with
  | true =>
      have hT := hmine rfl
      have hlive := hrec.live T hT
      have hcov := htr.covers hlive
      have hcharged : Charged 60 exactBelow (allowance T) (chargeOf x now)
          (s.get (ledgerKey "token" T.jti)).record _ := charged_after T (hfine _)
      have hs' : s' (ledgerKey "token" T.jti) = some _ := hres.charged _ (hown T hT)
      have hadmits := (hres.allowed _ (hown T hT)).admits
      rw [← value_decimalText] at hadmits
      refine ⟨hfine', ?_, fun _ => ?_, fun _ _ => ⟨_, hs', le_rfl⟩⟩
      · exact htr.respects.snoc hcov le_rfl hcharged hadmits (fun m => limit_lt_exactBelow)
          (chargeOf_nonneg x now)
      · rw [get_of_some hs']
        exact hcov.snoc le_rfl hcharged (chargeOf_nonneg x now)
  | false =>
      rw [if_neg Bool.false_ne_true, List.append_nil]
      have hkept : now < (T.exp + retentionAfterExpSeconds : ℤ) → h ≠ [] →
          ∃ e, s' (ledgerKey "token" T.jti) = some e ∧ T.exp + retentionAfterExpSeconds ≤ e.expiry ∧
            Covers 60 exactBelow (allowance T) now e.record h := by
        intro hlive hne
        obtain ⟨e, he, hexp⟩ := htr.retained hlive hne
        have hcov := htr.covers hlive
        rw [get_of_some he] at hcov
        by_cases hmem : ledgerKey "token" T.jti ∈ recs.map LedgerRecord.key
        · obtain ⟨link, hlink, hjti⟩ := hrec.token_cases.2 _ hmem
          have hlive' : now < e.expiry := hlive.trans_le (by exact_mod_cast hexp)
          have hkeep := hkeeps hne hlive link hlink hjti e he hlive'
          have hs' : s' (ledgerKey "token" link.jti) = _ := hres.charged _ (hown link hlink)
          rw [hjti, show (tokenRecord link).key = ledgerKey "token" T.jti by rw [← hjti]; rfl,
            get_of_some he] at hs'
          refine ⟨_, hs', (le_min hexp le_rfl).trans hkeep.expiry, ?_⟩
          exact hcov.retain le_rfl (retains_after hkeep.stamps (htr.fine _ e he))
        · refine ⟨e, ?_, hexp, hcov⟩
          rw [hres.same _ hmem, htr.unexpired hlive hne, he]
      refine ⟨hfine', htr.respects, fun hlive => ?_, fun hlive hne => ?_⟩
      · by_cases hne : h = []
        · rw [hne]
          exact Covers.nil (record_nonneg _)
        · obtain ⟨e, he, -, hcov⟩ := hkept hlive hne
          rw [get_of_some he]
          exact hcov
      · obtain ⟨e, he, hexp, -⟩ := hkept hlive hne
        exact ⟨e, he, hexp⟩

/-- A call that does not disturb the token's entry keeps it in step. -/
theorem Tracked.callStep (htr : Tracked T now s (chargesTo T log)) (c : Call)
    (hundisturbed : Undisturbed ed cfg T log s c) (hnow : now ≤ c.reserveTime) :
    Tracked T c.reserveTime (callStep ed (some (tracker cfg)) s c).2
      (chargesTo T (log ++ (Python.callStep ed (some (tracker cfg)) s c).1.toList)) := by
  have hlater := htr.later hnow
  rcases callStep_ledger ed cfg s c with
    hstep | ⟨claims, x, recs, s', hv, hcheck, hreserve, hrec, hres, hstep⟩
  · rw [hstep]
    simpa using hlater
  have hkeeps := fun hne hlive => hundisturbed hne hlive claims x hv hcheck (by rw [hreserve])
  rcases hstep with hstep | hstep
  · -- reserved and then refused, by the decision callback
    rw [hstep]
    simpa using hlater.reserve hrec hres hkeeps false nofun
  · rw [hstep, Option.toList_some, chargesTo_append, chargesTo_singleton T (checkCall_ok hcheck).2.2.2]
    exact hlater.reserve hrec hres hkeeps _ of_decide_eq_true

/-- **Token allowances hold on the ledger while the token's entry is not disturbed**: in
every run no reservation of which ends the live entry under the token's `jti` before the
token, or drops timestamps its rate needs, the accepted calls respect the token's limits,
and its entry outlives it. -/
theorem allowances_hold_of_undisturbed (ed : SignatureCheck) (cfg : Config) (calls : List Call)
    (hclock : (calls.map Call.reserveTime).Pairwise (· ≤ ·)) (T : CapabilityClaims)
    (hrun : Runs.AlongLog (callStep ed (some (tracker cfg))) (Undisturbed ed cfg T) [] .empty calls) :
    Respects 60 (allowance T) (chargesTo T (accepted ed (some (tracker cfg)) .empty calls)) ∧
    ((calls.map Call.reserveTime).getLastD 0 < (T.exp + retentionAfterExpSeconds : ℤ) →
      chargesTo T (accepted ed (some (tracker cfg)) .empty calls) ≠ [] →
      ∃ e, Runs.final (callStep ed (some (tracker cfg))) .empty calls (ledgerKey "token" T.jti) =
        some e ∧ T.exp + retentionAfterExpSeconds ≤ e.expiry) := by
  have htr := Runs.log_invariant_of_along (fun now s log => Tracked T now s (chargesTo T log))
    (fun _ _ _ c htr hP hnow => htr.callStep c hP hnow) (Tracked.init T) calls hrun hclock
  exact ⟨htr.respects, htr.retained⟩

/-- A token does not disturb its own entry. -/
theorem keeps_self (T : CapabilityClaims) (now : ℚ) (e : Entry) : Keeps T T now e :=
  ⟨min_le_right _ _, fun hsome hnone => absurd hnone hsome⟩

/-- No budgets, and none needed. -/
def noBudgets : Config := ⟨[], false, List.nodup_nil⟩

set_option maxRecDepth 100000 in
theorem allowances_hold_of_undisturbed_sample :
    Respects 60 (allowance sampleOnce) (chargesTo sampleOnce (accepted sampleCheck
      (some (tracker noBudgets)) .empty [sampleCall sampleOnce 1005, sampleCall sampleOnce 1006])) := by
  have hverify : ∀ time : ℚ, time = 1005 ∨ time = 1006 → ∀ claims,
      verify sampleCheck (sampleCall sampleOnce time).verifyOptions (sampleCall sampleOnce time).token
        time time = .ok claims → claims = sampleOnce := by
    intro time htime claims hv
    have hown : verify sampleCheck (sampleCall sampleOnce time).verifyOptions
        (sampleCall sampleOnce time).token time time = .ok sampleOnce := by
      rcases htime with rfl | rfl <;> decide +kernel
    exact Except.ok.inj (hv.symm.trans hown)
  have hundisturbed : ∀ log s, ∀ time : ℚ, time = 1005 ∨ time = 1006 →
      Undisturbed sampleCheck noBudgets sampleOnce log s (sampleCall sampleOnce time) := by
    intro log s time htime _ _ claims x hv _ _ link hlink _ e _ _
    obtain rfl := hverify time htime claims hv
    rw [List.mem_singleton.mp hlink]
    exact keeps_self _ _ e
  exact (allowances_hold_of_undisturbed sampleCheck noBudgets
    [sampleCall sampleOnce 1005, sampleCall sampleOnce 1006] (by decide +kernel) sampleOnce
    ⟨hundisturbed _ _ 1005 (Or.inl rfl), hundisturbed _ _ 1006 (Or.inr rfl), trivial⟩).1

/-! ## An allowance overrun -/

/-- A parent for the delegate `helper`. -/
def overrunParent : CapabilityClaims :=
  ⟨{ sampleClaims.toClaimFields with exp := 1007, jti := "p1", dlg := some "helper" }, by decide⟩

/-- The delegate's child, under the `jti` of `sampleOnce`; it expires before that token. -/
def overrunChild : CapabilityClaims :=
  ⟨{ sampleClaims.toClaimFields with
      iss := "helper", exp := 1006, prf := some (sampleToken overrunParent) }, by decide +kernel⟩

/-- A token under another `jti`. -/
def overrunOther : CapabilityClaims :=
  ⟨{ sampleClaims.toClaimFields with jti := "u1" }, by decide⟩

/-- The token for one call, the delegate's child, an unrelated token, the first token again. -/
def overrunCalls : List Call :=
  [sampleCall sampleOnce 1001, sampleCall overrunChild 1005, sampleCall overrunOther (2019 / 2),
    sampleCall sampleOnce 1010]

set_option maxRecDepth 100000 in
/-- **The child's reservation ends the entry early**, and the unrelated call drops it: the
token for one call is accepted twice. -/
theorem allowance_overrun :
    (overrunCalls.map Call.reserveTime).Pairwise (· ≤ ·) ∧
      ¬ Respects 60 (allowance sampleOnce) (chargesTo sampleOnce
        (accepted sampleCheck (some (tracker noBudgets)) .empty overrunCalls)) := by
  have htwice : (chargesTo sampleOnce
      (accepted sampleCheck (some (tracker noBudgets)) .empty overrunCalls)).length = 2 := by
    decide +kernel
  refine ⟨by decide +kernel, ?_⟩
  intro hres
  have hone := hres.calls 1 rfl
  rw [htwice] at hone
  exact absurd hone (by decide)

end Runs
end SwarmAuth.Python.BudgetUsageTracker
