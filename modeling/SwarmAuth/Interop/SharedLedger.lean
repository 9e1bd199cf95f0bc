import SwarmAuth.Interop.Ledgers
import SwarmAuth.Node.Signed

/-!
# Steps on a shared ledger

An entry of the ledger was written by charges of either runtime, each of which read what
was written before it. For such entries the runtimes answer alike and leave the same
entries, so it does not matter which of them serves a call.

## Main definitions

* `parsed`, `loaded` — an entry of one runtime, as the other reads it.
* `Stored` — the entries that can have been written, by the amounts charged to them.
* `ledgers_agree` — a step of one is a step of the other.
* `ledgers_differ` — where they part.
-/
namespace SwarmAuth.Interop

open Python (maxSafe safeMinor)
open Python.BudgetUsageTracker (ledgerKey)

/-! ## Stored entries -/

/-- An entry of Python's, as Node parses it. -/
def parsed (p : Python.BudgetUsageTracker.Entry) : Node.BudgetUsageTracker.Entry :=
  ⟨.ofInt p.calls, p.usd.text false, .ofInt p.minor, p.timestamps, .ofInt p.expiry⟩

/-- The digits of a positional text. -/
def layoutOf (text : List ℕ) : Layout :=
  ⟨(text.splitOn 46).headD [], ((text.splitOn 46)[1]?).getD [], none⟩

/-- An entry of Node's, as Python loads it. -/
def loaded (n : Node.BudgetUsageTracker.Entry) : Option Python.BudgetUsageTracker.Entry := do
  let calls ← Js.intOf n.calls
  let minor ← Js.intOf n.minor
  let expiry ← Js.intOf n.expiry
  some ⟨calls.toNat, layoutOf n.usd, minor, n.timestamps, expiry⟩

/-- The entries that charges of these amounts can have written: each charge is by either
runtime, under rules of its own, and reads the entry the last one left. -/
inductive Stored : List Amount → Python.BudgetUsageTracker.Entry → Node.BudgetUsageTracker.Entry → Prop
  | missing : Stored [] .missing .missing
  | python {amounts : List Amount} {p p' : Python.BudgetUsageTracker.Entry}
      {n : Node.BudgetUsageTracker.Entry} {cfg : Python.BudgetUsageTracker.Config}
      {chain : List Python.CapabilityClaims} {recs : List Python.BudgetUsageTracker.LedgerRecord}
      {r : Python.BudgetUsageTracker.LedgerRecord} {now : ℚ} {a : Amount} (h : Stored amounts p n)
      (hrecs : Python.BudgetUsageTracker.records cfg chain now = .ok recs) (hr : r ∈ recs)
      (hok : Python.BudgetUsageTracker.pending r p now a.mag = .ok p') :
      Stored (amounts ++ [a]) p' (parsed p')
  | node {amounts : List Amount} {p p' : Python.BudgetUsageTracker.Entry}
      {n n' : Node.BudgetUsageTracker.Entry} {cfg : Node.BudgetUsageTracker.Config}
      {chain : List Node.Claims} {recs : List Node.BudgetUsageTracker.LedgerRecord}
      {s : Node.BudgetUsageTracker.LedgerRecord} {now : ℚ} {a : Amount} (h : Stored amounts p n)
      (hchain : ∀ c ∈ chain, Node.Presented c)
      (hrecs : Node.BudgetUsageTracker.records cfg chain now = .ok recs) (hs : s ∈ recs)
      (hok : Node.BudgetUsageTracker.pending s n now a.number = .ok n') (hload : loaded n' = some p') :
      Stored (amounts ++ [a]) p' n'

/-! ## Reading back -/

section Reading
variable {amounts : List Amount} {p p' : Python.BudgetUsageTracker.Entry}
variable {n : Node.BudgetUsageTracker.Entry}

theorem layoutOf_text {l : Layout} (hl : l.Valid) (hexponent : l.exponent = none) :
    layoutOf (l.text false) = l := by
  have htext : l.text false = Node.mantissaText l := by
    simp [Layout.text, Node.mantissaText, hexponent]
  rw [layoutOf, htext, Node.splitOn_mantissaText hl]
  obtain ⟨whole, frac, exponent⟩ := l
  subst hexponent
  by_cases hfrac : frac = []
  · simp [hfrac]
  · simp [hfrac]

/-- What Node parses of an entry has its counters. -/
theorem Holds.parsed (h : Holds amounts p n) (hlen : amounts.length ≤ 2 ^ 53) :
    Holds amounts p (parsed p) where
  count := h.count
  calls := .ofInt (by rw [h.count, abs_of_nonneg (by positivity)]; exact_mod_cast hlen)
  total := h.total
  usd := rfl
  minor := .ofInt (by
    have hrange := h.minor_range
    rw [maxSafe] at hrange
    rw [abs_le]
    omega)
  minor_range := h.minor_range
  timestamps := rfl
  timestamps_length := h.timestamps_length

/-- What Python loads of an entry has its counters. -/
theorem Holds.loaded (h : Holds amounts p n) (hlen : amounts.length ≤ 2 ^ 53)
    (hload : loaded n = some p') : Holds amounts p' n := by
  have hkept := kept amounts (lt_of_le_pow53 hlen)
  have husd : layoutOf n.usd = p.usd := by
    rw [h.usd, h.total]
    exact layoutOf_text hkept.canonical.toValid hkept.canonical.no_exponent
  rw [Interop.loaded, Js.intOf_value h.calls, Js.intOf_value h.minor] at hload
  simp only [Option.bind_eq_bind, Option.bind_some, Option.bind_eq_some_iff, Option.some.injEq]
    at hload
  obtain ⟨expiry, -, rfl⟩ := hload
  exact ⟨h.count, h.calls, husd.trans h.total, h.usd.trans (congrArg (Layout.text false) husd.symm),
    h.minor, h.minor_range, rfl, h.timestamps ▸ h.timestamps_length⟩

end Reading

/-! ## What a record asks -/

theorem exists_rel {limit : Option Double} (h : ∀ d, limit = some d → Js.isSafeInteger d = true) :
    ∃ k : Option ℤ, Option.Rel SameNumber k limit := by
  cases limit with
  | none => exact ⟨none, .none⟩
  | some d =>
      obtain ⟨k, hk, -⟩ := Js.exists_int_of_safe (h d rfl)
      exact ⟨some k, .some hk⟩

theorem limits_of_presented {c : Node.Claims} (h : Node.Presented c) :
    (∀ d, c.constraints.maxCalls = some d → Js.isSafeInteger d = true) ∧
    (∀ d, c.constraints.rateLimitPerMin = some d → Js.isSafeInteger d = true) ∧
    ∀ d, c.constraints.maxAmountUsd = some d → Python.nonNegative d = true := by
  obtain ⟨limits, hv, hc⟩ := h.limits
  have hcount : ∀ value d, ¬ (!Node.validCount value) = true → Node.numberOf value = some d →
      Js.isSafeInteger d = true := by
    intro value d hvalid hd
    cases value with
    | scalar s =>
        cases s with
        | number e =>
            obtain rfl : e = d := Option.some.inj hd
            have hnullish : Js.Value.isNullish (.scalar (.number e)) = false := rfl
            simp only [Node.validCount, hnullish, Bool.false_or, Bool.not_eq_true', Bool.not_eq_false,
              Bool.and_eq_true] at hvalid
            exact hvalid.1
        | _ => cases hd
    | _ => cases hd
  simp only [Node.validateConstraints, raiseIf_bind_eq_ok, raiseIf_eq_ok] at hv
  obtain ⟨-, hcalls, hrate, hamount, -⟩ := hv
  rw [hc]
  refine ⟨fun d => hcount _ d hcalls, fun d => hcount _ d hrate, fun d hd => ?_⟩
  have hd : Node.numberOf (limits.get "max_amount_usd") = some d := hd
  generalize limits.get "max_amount_usd" = value at hamount hd
  cases value with
  | scalar s =>
      cases s with
      | number e =>
          obtain rfl : e = d := Option.some.inj hd
          have hnullish : Js.Value.isNullish (.scalar (.number e)) = false := rfl
          simp only [Node.validAmount, hnullish, Bool.false_or, Bool.not_eq_true', Bool.not_eq_false,
            Bool.and_eq_true, Bool.not_eq_true'] at hamount
          obtain ⟨hfinite, hle⟩ := hamount
          cases e with
          | finite neg mag =>
              have hzero : (Double.ofInt 0).value? = some 0 := by decide +kernel
              rw [Js.lessThan_value rfl hzero, decide_eq_false_iff_not, not_lt] at hle
              rw [Python.nonNegative, Double.value?, Option.any_some, decide_eq_true_eq]
              exact hle
          | inf neg => cases hfinite
          | nan => cases hfinite
      | _ => cases hd
  | _ => cases hd

/-- The limits of a record in Node's numbers. -/
theorem rel_ofInt {k : Option ℤ} (h : k.all Python.positiveSafe = true) :
    Option.Rel SameNumber k (k.map .ofInt) := by
  cases k with
  | none => exact .none
  | some k =>
      simp only [Option.all_some, Python.positiveSafe, Bool.and_eq_true, decide_eq_true_eq] at h
      obtain ⟨hlow, hhigh⟩ := h
      rw [maxSafe] at hhigh
      exact .some (.ofInt (by rw [abs_le]; omega))

theorem rel_usd {usd : Option Double} (h : ∀ d, usd = some d → Python.nonNegative d = true) :
    Option.Rel (fun a d => d.value? = a.value? ∧ Python.nonNegative a = true) usd usd := by
  cases usd with
  | none => exact .none
  | some d => exact .some ⟨rfl, h d rfl⟩

/-- Python's record has a counterpart of Node's. -/
theorem exists_node_limits {cfg : Python.BudgetUsageTracker.Config}
    {chain : List Python.CapabilityClaims} {now : ℚ}
    {recs : List Python.BudgetUsageTracker.LedgerRecord} {r : Python.BudgetUsageTracker.LedgerRecord}
    (h : Python.BudgetUsageTracker.records cfg chain now = .ok recs) (hr : r ∈ recs) :
    ∃ s, SameLimits r s := by
  have htoken : ∀ c : Python.CapabilityClaims,
      ∃ s, SameLimits (Python.BudgetUsageTracker.tokenRecord c) s := by
    intro c
    have hv := c.constraints.valid
    simp only [Python.ConstraintFields.valid, Bool.and_eq_true] at hv
    have hzero : SameNumber 0 (.ofInt 0) := .ofInt (by norm_num)
    have hrange : (0 : ℤ) ≤ 0 ∧ (0 : ℤ) ≤ maxSafe := by decide
    refine ⟨⟨[], .nan, c.constraints.maxCalls.map .ofInt, c.constraints.maxAmountUsd,
      c.constraints.rateLimitPerMin.map .ofInt, none, .ofInt 0⟩, rel_ofInt hv.1.1.1.1.1,
      rel_usd fun d hd => c.constraints.amount_nonNegative hd, rel_ofInt hv.1.1.1.2, .none,
      hzero, hrange, fun _ => rfl, fun _ hk => by cases hk⟩
  obtain ⟨root, leaf, -, -, ⟨-, rfl⟩ | ⟨rule, minor, hcharge, rfl⟩⟩ :=
    (Python.BudgetUsageTracker.records_ok h).budget
  · obtain ⟨c, -, rfl⟩ := List.mem_map.mp hr
    exact htoken c
  · rcases List.mem_append.mp hr with hr | hr
    · obtain ⟨c, -, rfl⟩ := List.mem_map.mp hr
      exact htoken c
    · rw [List.mem_singleton.mp hr]
      have hv := rule.valid
      simp only [Python.BudgetUsageTracker.RuleFields.valid, Bool.and_eq_true] at hv
      have hrange := safeMinor_range hcharge.minor
      have hlimit := maxAmountMinor_range rule
      have hexact : ∀ k : ℤ, 0 ≤ k ∧ k ≤ maxSafe → SameNumber k (.ofInt k) := by
        intro k hk
        rw [maxSafe] at hk
        exact .ofInt (by rw [abs_le]; omega)
      exact ⟨⟨[], .nan, rule.maxCalls.map .ofInt, none, none, some (.ofInt rule.maxAmountMinor),
        .ofInt minor⟩, rel_ofInt hv.2, .none, .none, .some (hexact _ hlimit), hexact _ hrange, hrange,
        (fun hk => by cases hk), fun k hk => Option.some.inj hk ▸ hlimit⟩

/-- Node's records are of its tokens, or of a budget and a safe amount. -/
theorem mem_node_records {cfg : Node.BudgetUsageTracker.Config} {chain : List Node.Claims} {now : ℚ}
    {recs : List Node.BudgetUsageTracker.LedgerRecord} {s : Node.BudgetUsageTracker.LedgerRecord}
    (h : Node.BudgetUsageTracker.records cfg chain now = .ok recs) (hs : s ∈ recs) :
    (∃ c ∈ chain, s = Node.BudgetUsageTracker.tokenRecord c) ∨
      ∃ rule minor, Node.BudgetUsageTracker.safe minor = true ∧
        s = Node.BudgetUsageTracker.BudgetRule.record rule minor := by
  have htokens : ∀ {toks}, chain.mapM (Node.BudgetUsageTracker.liveTokenRecord now) = .ok toks →
      ∀ t ∈ toks, ∃ c ∈ chain, t = Node.BudgetUsageTracker.tokenRecord c := by
    intro toks htoks t ht
    have hlive : ∀ c ∈ chain, ∀ t, Node.BudgetUsageTracker.liveTokenRecord now c = .ok t ↔
        ¬ Node.BudgetUsageTracker.reached (Js.plus c.exp (.ofInt 3)) now = true ∧
          t = Node.BudgetUsageTracker.tokenRecord c := by
      intro c _ t
      rw [Node.BudgetUsageTracker.liveTokenRecord, raiseIf_bind_eq_ok, pure_eq_ok]
      exact and_congr_right fun _ => eq_comm
    obtain ⟨-, rfl⟩ := (mapM_eq_ok hlive).mp htoks
    obtain ⟨c, hc, rfl⟩ := List.mem_map.mp ht
    exact ⟨c, hc, rfl⟩
  simp only [Node.BudgetUsageTracker.records, raiseIf_bind_eq_ok] at h
  obtain ⟨-, h⟩ := h
  obtain ⟨toks, htoks, h⟩ := bind_eq_ok.mp h
  split at h
  · split_ifs at h
    · exact Or.inl (htokens htoks s (Except.ok.inj h ▸ hs))
    · obtain ⟨budget, hbudget, h⟩ := bind_eq_ok.mp h
      rw [← Except.ok.inj h] at hs
      rcases List.mem_append.mp hs with hs | hs
      · exact Or.inl (htokens htoks s hs)
      · obtain ⟨rule, -, hbudget⟩ := bind_eq_ok.mp hbudget
        simp only [raiseIf_bind_eq_ok, pure_eq_ok] at hbudget
        obtain ⟨-, -, hsafe, -, rfl⟩ := hbudget
        refine Or.inr ⟨rule, _, ?_, List.mem_singleton.mp hs⟩
        rw [Bool.not_eq_true', Bool.not_eq_false] at hsafe
        revert hsafe
        cases Js.Object.get _ (lit "amount_minor") with
        | scalar v =>
            cases v with
            | number d => exact id
            | _ => exact fun h => nomatch h
        | _ => exact fun h => nomatch h
  · exact Or.inl (htokens htoks s (Except.ok.inj h ▸ hs))

/-- Node's record has a counterpart of Python's. -/
theorem exists_python_limits {cfg : Node.BudgetUsageTracker.Config} {chain : List Node.Claims}
    {now : ℚ} {recs : List Node.BudgetUsageTracker.LedgerRecord}
    {s : Node.BudgetUsageTracker.LedgerRecord} (hchain : ∀ c ∈ chain, Node.Presented c)
    (h : Node.BudgetUsageTracker.records cfg chain now = .ok recs) (hs : s ∈ recs) :
    ∃ r, SameLimits r s := by
  rcases mem_node_records h hs with ⟨c, hc, rfl⟩ | ⟨rule, minor, hsafe, rfl⟩
  · obtain ⟨hcalls, hrate, husd⟩ := limits_of_presented (hchain c hc)
    obtain ⟨calls, hcalls⟩ := exists_rel hcalls
    obtain ⟨rate, hrate⟩ := exists_rel hrate
    have hzero : SameNumber 0 (.ofInt 0) := .ofInt (by norm_num)
    have hrange : (0 : ℤ) ≤ 0 ∧ (0 : ℤ) ≤ maxSafe := by decide
    exact ⟨⟨[], 0, calls, c.constraints.maxAmountUsd, rate, none, 0⟩, hcalls, rel_usd husd, hrate,
      .none, hzero, hrange, fun _ => rfl, fun _ hk => by cases hk⟩
  · have hexact : ∀ d, Node.BudgetUsageTracker.safe d = true →
        ∃ k : ℤ, SameNumber k d ∧ 0 ≤ k ∧ k ≤ maxSafe := by
      intro d hd
      obtain ⟨k, hk, -⟩ := Js.exists_int_of_safe (Bool.and_eq_true_iff.mp hd).1
      obtain ⟨hnonneg, hle, -⟩ := (safe_iff hk).mp hd
      exact ⟨k, hk, by exact_mod_cast hnonneg, by exact_mod_cast hle⟩
    have hv := rule.valid
    simp only [Node.BudgetUsageTracker.RuleFields.valid, Bool.and_eq_true] at hv
    obtain ⟨m, hm, hrange⟩ := hexact minor hsafe
    obtain ⟨limit, hlimit, hlimitRange⟩ := hexact rule.maxAmountMinor hv.1.1.2
    obtain ⟨calls, hcalls⟩ : ∃ calls : Option ℤ, Option.Rel SameNumber calls rule.maxCalls := by
      refine exists_rel fun d hd => ?_
      have hpositive := hv.2
      rw [hd, Option.all_some, Node.BudgetUsageTracker.positive, Bool.and_eq_true,
        Node.BudgetUsageTracker.safe, Bool.and_eq_true] at hpositive
      exact hpositive.1.1
    exact ⟨⟨[], 0, calls, none, none, some limit, m⟩, hcalls, .none, .none, .some hlimit, hm, hrange,
      (fun hk => by cases hk), fun k hk => Option.some.inj hk ▸ hlimitRange⟩

/-! ## Stored entries hold what was charged -/

theorem Stored.holds {amounts : List Amount} {p : Python.BudgetUsageTracker.Entry}
    {n : Node.BudgetUsageTracker.Entry} (h : Stored amounts p n) (hlen : amounts.length ≤ 2 ^ 53) :
    Holds amounts p n := by
  induction h with
  | missing => exact holds_missing
  | @python amounts p p' n cfg chain recs r now a _ hrecs hr hok ih =>
      have hlt : amounts.length < 2 ^ 53 := by
        rw [List.length_append, List.length_singleton] at hlen
        exact hlen
      obtain ⟨s, hlimits⟩ := exists_node_limits hrecs hr
      have hstep := pending_agrees a now hlimits (ih hlt.le) hlt
      rw [hok] at hstep
      obtain ⟨n', -, hholds, -⟩ := hstep.of_python
      exact hholds.parsed hlen
  | @node amounts p p' n n' cfg chain recs s now a _ hchain hrecs hs hok hload ih =>
      have hlt : amounts.length < 2 ^ 53 := by
        rw [List.length_append, List.length_singleton] at hlen
        exact hlen
      obtain ⟨r, hlimits⟩ := exists_python_limits hchain hrecs hs
      have hstep := pending_agrees a now hlimits (ih hlt.le) hlt
      rw [hok] at hstep
      obtain ⟨p'', -, hholds, -⟩ := hstep.of_node
      exact hholds.loaded hlen hload

/-! ## A reservation -/

/-- The entries a reservation would leave, in Python. -/
def pythonStep (cfg : Python.BudgetUsageTracker.Config) (chain : List Python.CapabilityClaims)
    (a : Amount) (now : ℚ) (s : Python.BudgetUsageTracker.State) :
    Python.Outcome (List (List ℕ × Python.BudgetUsageTracker.Entry)) :=
  Python.BudgetUsageTracker.pendingEntries cfg chain (.scalar (.float a.number)) now s

/-- The entries a reservation would leave, in Node. -/
def nodeStep (cfg : Node.BudgetUsageTracker.Config) (chain : List Node.Claims) (a : Amount) (now : ℚ)
    (s : Node.BudgetUsageTracker.State) :
    Js.Outcome (List (Units × Node.BudgetUsageTracker.Entry)) :=
  Node.BudgetUsageTracker.pendingEntries cfg chain a.number now s

/-- The same entry under the same record's key. -/
structure SameMember (p : List ℕ × Python.BudgetUsageTracker.Entry)
    (n : Units × Node.BudgetUsageTracker.Entry) : Prop where
  key : ∃ kind : RecordKind, ∃ id, p.1 = ledgerKey kind.text id ∧ n.1 = nodeText kind id
  entry : SameEntry p.2 n.2

/-- The ledger holds the same stored entries, each charged so many times. -/
def SameLedger (often : ℕ → Prop) (ps : Python.BudgetUsageTracker.State)
    (ns : Node.BudgetUsageTracker.State) : Prop :=
  ∀ (kind : RecordKind) (id : Units), ∃ amounts : List Amount, often amounts.length ∧
    Stored amounts (ps.get (ledgerKey kind.text id)) (ns.get (nodeText kind id))

/-- **The ledgers agree**: the runtimes refuse the same reservations with the same code, and
leave the same entries. No token expires at `2 ^ 53 - 2`, and no entry was charged `2 ^ 53` times. -/
theorem ledgers_agree (pcfg : Python.BudgetUsageTracker.Config) (ncfg : Node.BudgetUsageTracker.Config)
    (pchain : List Python.CapabilityClaims) (nchain : List Node.Claims) (a : Amount) (now : ℚ)
    (ps : Python.BudgetUsageTracker.State) (ns : Node.BudgetUsageTracker.State)
    (hcfg : SameConfig pcfg ncfg) (hchain : List.Forall₂ SameLink pchain nchain)
    (hexp : ∀ p ∈ pchain, p.exp ≠ 2 ^ 53 - 2) (hledger : SameLedger (· < 2 ^ 53) ps ns) :
    SameOutcome (List.Forall₂ SameMember) (pythonStep pcfg pchain a now ps)
      (nodeStep ncfg nchain a now ns) := by
  have hpos : ¬ (!Js.isFinite a.number || Js.lessThan a.number (.ofInt 0)) = true := by
    have hzero : (Double.ofInt 0).value? = some 0 := by decide +kernel
    have hnonneg := a.mag.value_nonneg
    rw [Js.isFinite_value a.value, Js.lessThan_value a.value hzero]
    simpa using hnonneg
  rw [pythonStep, Python.BudgetUsageTracker.pendingEntries, a.validated, nodeStep,
    Node.BudgetUsageTracker.pendingEntries, raiseIf, if_neg hpos]
  refine (records_agree hcfg hchain hexp).bind fun precs nrecs hrecs => ?_
  refine SameOutcome.mapM hrecs fun r s hrs => ?_
  obtain ⟨kind, id, hr, hs⟩ := hrs.key
  obtain ⟨amounts, hlen, hstored⟩ := hledger kind id
  rw [Python.BudgetUsageTracker.pendingEntry, Node.BudgetUsageTracker.pendingEntry, hr, hs]
  refine (pending_agrees a now hrs.toSameLimits (hstored.holds hlen.le) hlen).bind
    fun p' n' hpending => .ok ⟨⟨kind, id, rfl, rfl⟩, ?_⟩
  obtain ⟨hholds, hp, hn⟩ := hpending
  refine ⟨hholds.calls, hholds.usd, hholds.minor, hholds.timestamps, ?_⟩
  rw [hp, hn]
  exact hrs.expiry

/-! ## Where they part -/

/-- No rules, and none required. -/
def pythonTokens : Python.BudgetUsageTracker.Config := ⟨[], false, List.nodup_nil⟩
def nodeTokens : Node.BudgetUsageTracker.Config := ⟨[], false, List.nodup_nil⟩

theorem sameConfig_tokens : SameConfig pythonTokens nodeTokens := ⟨.nil, rfl⟩

/-- Claims without limits. -/
def unlimited (iat exp : ℤ) : Python.ClaimFields where
  iss := lit "agent"
  sub := lit "tool"
  capabilities := [lit "mcp:call"]
  constraints := .default
  iat := iat
  exp := exp
  jti := lit "j1"

/-- They are Node's claims too. -/
def unlimitedNode (iat exp : ℤ) : Node.Claims where
  iss := lit "agent"
  sub := lit "tool"
  jti := lit "j1"
  capabilities := [lit "mcp:call"]
  iat := .ofInt iat
  exp := .ofInt exp
  constraints := {}
  dlg := none
  prf := none

theorem sameLink_unlimited {p : Python.CapabilityClaims} {iat exp : ℤ}
    (hp : p.toClaimFields = unlimited iat exp) (hexp : |exp| ≤ 2 ^ 53) :
    SameLink p (unlimitedNode iat exp) := by
  obtain ⟨fields, valid⟩ := p
  obtain rfl : fields = unlimited iat exp := hp
  exact ⟨rfl, rfl, .ofInt hexp, .none, .none, .none, fun _ => rfl, rfl⟩

/-- A token that lives for five seconds. -/
def shortToken : Python.CapabilityClaims := ⟨unlimited 1005 1010, by decide⟩

/-- Its namesake in the far future. -/
def lastToken : Python.CapabilityClaims := ⟨unlimited (2 ^ 53 - 7) (2 ^ 53 - 2), by decide⟩

/-- Nothing. -/
def zeroAmount : Amount := ⟨.ofInt 0, by decide +kernel⟩

theorem sameLedger_empty : SameLedger (· < 2 ^ 53) .empty fun _ => none :=
  fun _ _ => ⟨[], by norm_num, .missing⟩

theorem ledgers_agree_sample :
    (pythonStep pythonTokens [shortToken] zeroAmount 1006 .empty).isOk = true ∧
      SameOutcome (List.Forall₂ SameMember)
        (pythonStep pythonTokens [shortToken] zeroAmount 1006 .empty)
        (nodeStep nodeTokens [unlimitedNode 1005 1010] zeroAmount 1006 fun _ => none) := by
  refine ⟨by decide +kernel, ledgers_agree pythonTokens nodeTokens [shortToken]
    [unlimitedNode 1005 1010] zeroAmount 1006 .empty (fun _ => none) sameConfig_tokens
    (.cons (sameLink_unlimited rfl (by norm_num)) .nil) ?_ sameLedger_empty⟩
  intro p hp
  rw [List.mem_singleton.mp hp]
  decide

/-- The expiry of a token that expires at `2 ^ 53 - 2` is not a number of Node's. -/
theorem expiry_differs : ¬ SameOutcome (List.Forall₂ SameMember)
    (pythonStep pythonTokens [lastToken] zeroAmount 1006 .empty)
    (nodeStep nodeTokens [unlimitedNode (2 ^ 53 - 7) (2 ^ 53 - 2)] zeroAmount 1006 fun _ => none) := by
  intro h
  have hpython : (pythonStep pythonTokens [lastToken] zeroAmount 1006 .empty).toOption.map
      (List.map fun m => m.2.expiry) = some [2 ^ 53 + 1] := by decide +kernel
  have hnode : (nodeStep nodeTokens [unlimitedNode (2 ^ 53 - 7) (2 ^ 53 - 2)] zeroAmount 1006
      fun _ => none).toOption.map (List.map fun m => m.2.expiry.value?) = some [some (2 ^ 53)] := by
    decide +kernel
  generalize pythonStep pythonTokens [lastToken] zeroAmount 1006 .empty = x at h hpython
  generalize (nodeStep nodeTokens [unlimitedNode (2 ^ 53 - 7) (2 ^ 53 - 2)] zeroAmount 1006
    fun _ => none) = y at h hnode
  cases h with
  | error => exact nomatch hpython
  | @ok ps ns hrel =>
      have hps : ps.map (fun m => m.2.expiry) = [2 ^ 53 + 1] := Option.some.inj hpython
      have hns : ns.map (fun m => m.2.expiry.value?) = [some (2 ^ 53)] := Option.some.inj hnode
      cases hrel with
      | nil => exact nomatch hps
      | cons hm _ =>
          have hp : _ = (2 ^ 53 + 1 : ℤ) := (List.cons.inj hps).1
          have hn : _ = some ((2 : ℚ) ^ 53) := (List.cons.inj hns).1
          have hexpiry := hn.symm.trans (hm.entry.expiry.trans (congrArg (some ∘ Int.cast) hp))
          norm_num at hexpiry

/-! ### Counts -/

theorem records_short {now : ℚ} (hnow : now < 1013) :
    Python.BudgetUsageTracker.records pythonTokens [shortToken] now =
      .ok [Python.BudgetUsageTracker.tokenRecord shortToken] := by
  have hexpiry : ((shortToken.exp + Python.retentionAfterExpSeconds : ℤ) : ℚ) = 1013 := by
    norm_num [shortToken, unlimited, Python.retentionAfterExpSeconds, Python.maxLeewaySeconds]
  have hrecord : Python.BudgetUsageTracker.liveTokenRecord now shortToken =
      .ok (Python.BudgetUsageTracker.tokenRecord shortToken) :=
    Python.BudgetUsageTracker.liveTokenRecord_ok.mpr ⟨by rwa [hexpiry], rfl⟩
  rw [Python.BudgetUsageTracker.records, List.mapM_cons, hrecord]
  rfl

/-- An entry can be charged as often as one likes. -/
theorem exists_stored (k : ℕ) : ∃ p n, Stored (List.replicate k zeroAmount) p n := by
  induction k with
  | zero => exact ⟨_, _, .missing⟩
  | succ k ih =>
      obtain ⟨p, n, h⟩ := ih
      rw [List.replicate_succ']
      exact ⟨_, _, h.python (records_short (by norm_num : (1006 : ℚ) < 1013))
        (List.mem_singleton_self _) rfl⟩

theorem node_pending_calls {r : Node.BudgetUsageTracker.LedgerRecord}
    {n n' : Node.BudgetUsageTracker.Entry} {now : ℚ} {amount : Double}
    (h : Node.BudgetUsageTracker.pending r n now amount = .ok n') :
    n'.calls = Js.plus n.calls (.ofInt 1) := by
  simp only [Node.BudgetUsageTracker.pending, bind_eq_ok, pure_eq_ok] at h
  obtain ⟨_, -, _, -, _, -, _, -, _, -, _, -, rfl⟩ := h
  rfl

theorem nodeStep_calls {cfg : Node.BudgetUsageTracker.Config} {chain : List Node.Claims} {a : Amount}
    {now : ℚ} {ns : Node.BudgetUsageTracker.State} {n : Node.BudgetUsageTracker.Entry}
    {out : List (Units × Node.BudgetUsageTracker.Entry)} (hns : ∀ key, ns.get key = n)
    (h : nodeStep cfg chain a now ns = .ok out) :
    ∀ m ∈ out, m.2.calls = Js.plus n.calls (.ofInt 1) := by
  intro m hm
  simp only [nodeStep, Node.BudgetUsageTracker.pendingEntries, bind_eq_ok] at h
  obtain ⟨_, -, recs, -, h⟩ := h
  obtain ⟨r, -, hr⟩ := mem_of_mapM h hm
  obtain ⟨e, he, hpair⟩ := bind_eq_ok.mp hr
  rw [← Except.ok.inj hpair, ← hns r.key]
  exact node_pending_calls he

/-- After `2 ^ 53` charges Node's count stands still. -/
theorem count_differs : ∃ ps ns, SameLedger (fun _ => True) ps ns ∧
    ¬ SameOutcome (List.Forall₂ SameMember) (pythonStep pythonTokens [shortToken] zeroAmount 1006 ps)
      (nodeStep nodeTokens [unlimitedNode 1005 1010] zeroAmount 1006 ns) := by
  obtain ⟨p, n, h⟩ := exists_stored (2 ^ 53)
  have hholds := h.holds (by rw [List.length_replicate])
  have hcount : p.calls = 2 ^ 53 := by rw [hholds.count, List.length_replicate]
  refine ⟨fun _ => some p, fun _ => some n, fun _ _ => ⟨_, trivial, h⟩, fun hsame => ?_⟩
  have hpython : pythonStep pythonTokens [shortToken] zeroAmount 1006 (fun _ => some p) =
      .ok [((Python.BudgetUsageTracker.tokenRecord shortToken).key,
        (Python.BudgetUsageTracker.tokenRecord shortToken).after p 1006 zeroAmount.mag)] := by
    rw [pythonStep, Python.BudgetUsageTracker.pendingEntries, zeroAmount.validated,
      records_short (by norm_num)]
    rfl
  rw [hpython] at hsame
  obtain ⟨ns, hnode, hrel⟩ := hsame.of_python
  cases hrel with
  | @cons _ m _ ms hm _ =>
      have hcalls : m.2.calls = Js.plus n.calls (.ofInt 1) :=
        nodeStep_calls (fun _ => rfl) hnode m List.mem_cons_self
      have hstill := hm.entry.calls
      have hplus : (Js.plus n.calls (.ofInt 1)).value? = some (2 ^ 53) := by
        have hone : SameNumber 1 (.ofInt 1) := .ofInt (by norm_num)
        have hsum : (((2 ^ 53 : ℕ) : ℤ) : ℚ) + ((1 : ℤ) : ℚ) = ((2 ^ 53 + 1 : ℤ) : ℚ) := by norm_num
        rw [Js.plus, hholds.calls, hone, hcount]
        simp only [hsum]
        exact nearestTo_beyond.1
      rw [SameNumber, hcalls, hplus, Option.some.injEq] at hstill
      have hnext : ((Python.BudgetUsageTracker.tokenRecord shortToken).after p 1006
          zeroAmount.mag).calls = 2 ^ 53 + 1 := congrArg (· + 1) hcount
      rw [hnext] at hstill
      norm_num at hstill

/-- **The ledgers differ** for a token that expires at `2 ^ 53 - 2`, and on an entry that was
charged `2 ^ 53` times. -/
theorem ledgers_differ :
    (¬ ∀ (pcfg : Python.BudgetUsageTracker.Config) (ncfg : Node.BudgetUsageTracker.Config)
      (pchain : List Python.CapabilityClaims) (nchain : List Node.Claims) (a : Amount) (now : ℚ)
      (ps : Python.BudgetUsageTracker.State) (ns : Node.BudgetUsageTracker.State),
      SameConfig pcfg ncfg → List.Forall₂ SameLink pchain nchain → SameLedger (· < 2 ^ 53) ps ns →
        SameOutcome (List.Forall₂ SameMember) (pythonStep pcfg pchain a now ps)
          (nodeStep ncfg nchain a now ns)) ∧
    ¬ ∀ (pcfg : Python.BudgetUsageTracker.Config) (ncfg : Node.BudgetUsageTracker.Config)
      (pchain : List Python.CapabilityClaims) (nchain : List Node.Claims) (a : Amount) (now : ℚ)
      (ps : Python.BudgetUsageTracker.State) (ns : Node.BudgetUsageTracker.State),
      SameConfig pcfg ncfg → List.Forall₂ SameLink pchain nchain →
      (∀ p ∈ pchain, p.exp ≠ 2 ^ 53 - 2) → SameLedger (fun _ => True) ps ns →
        SameOutcome (List.Forall₂ SameMember) (pythonStep pcfg pchain a now ps)
          (nodeStep ncfg nchain a now ns) := by
  refine ⟨fun hall => ?_, fun hall => ?_⟩
  · exact expiry_differs (hall pythonTokens nodeTokens [lastToken] _ zeroAmount 1006 _ _
      sameConfig_tokens (.cons (sameLink_unlimited rfl (by norm_num)) .nil) sameLedger_empty)
  · obtain ⟨ps, ns, hledger, hdiffer⟩ := count_differs
    refine hdiffer (hall pythonTokens nodeTokens [shortToken] _ zeroAmount 1006 ps ns
      sameConfig_tokens (.cons (sameLink_unlimited rfl (by norm_num)) .nil) (fun p hp => ?_) hledger)
    rw [List.mem_singleton.mp hp]
    decide

end SwarmAuth.Interop
