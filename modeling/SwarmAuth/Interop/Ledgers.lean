import SwarmAuth.Interop.Totals
import SwarmAuth.Interop.LedgerKeys
import SwarmAuth.Interop.Pins
import SwarmAuth.Node.Budgets
import SwarmAuth.Js.Value

/-!
# One ledger, two runtimes

Python and Node keep the same entries in Redis. Python counts in unbounded integers and
sums in decimals; Node counts in binary64 numbers and sums texts. For the same rules, chain,
clock read, amount and entries they give the same answer, and leave the same entries.

Two numbers are beyond Node: an expiry of `2 ^ 53 + 1`, and a count after `2 ^ 53`.

## Main definitions

* `SameConfig`, `SameLink` — the same rules and claims.
* `Stored` — the entries the runtimes can have written.
* `ledgers_agree` — a step of one is a step of the other.
-/
namespace SwarmAuth.Interop

open Python (maxSafe safeMinor recentStamps decimalSum limitDecimal)
open Python.BudgetUsageTracker (ledgerKey decimalText)

/-! ## Answers -/

/-- Related results, or errors of one code. -/
inductive SameOutcome {α β : Type} (R : α → β → Prop) : Python.Outcome α → Js.Outcome β → Prop
  | ok {a : α} {b : β} (h : R a b) : SameOutcome R (.ok a) (.ok b)
  | error {cls : Python.ErrorClass} {message : List Python.Piece} {constraint : Option String}
      {required : Option Units} {granted : List Units} {text : String} :
      SameOutcome R (.error (.swarmAuth cls message constraint required granted))
        (.error (.swarmAuth cls.code text))

section Outcomes
variable {α β γ δ : Type} {R : α → β → Prop} {S : γ → δ → Prop}

theorem SameOutcome.bind {x : Python.Outcome α} {y : Js.Outcome β} {f : α → Python.Outcome γ}
    {g : β → Js.Outcome δ} (h : SameOutcome R x y) (hf : ∀ a b, R a b → SameOutcome S (f a) (g b)) :
    SameOutcome S (x >>= f) (y >>= g) := by
  cases h with
  | ok h => exact hf _ _ h
  | error => exact .error

theorem SameOutcome.of_python {a : α} {y : Js.Outcome β} (h : SameOutcome R (.ok a) y) :
    ∃ b, y = .ok b ∧ R a b := by
  cases h with
  | ok h => exact ⟨_, rfl, h⟩

theorem SameOutcome.of_node {x : Python.Outcome α} {b : β} (h : SameOutcome R x (.ok b)) :
    ∃ a, x = .ok a ∧ R a b := by
  cases h with
  | ok h => exact ⟨_, rfl, h⟩

theorem orRaise_some_bind {ε : Type} {a : α} {e : ε} {f : α → Except ε γ} :
    (orRaise (some a) e >>= f) = f a := rfl

theorem sameOutcome_raiseIf {c d : Prop} [Decidable c] [Decidable d] (h : c ↔ d)
    {cls : Python.ErrorClass} {message : List Python.Piece} {constraint : Option String}
    {required : Option Units} {granted : List Units} {text : String} :
    SameOutcome (fun _ _ => True)
      (raiseIf c (Python.PyError.swarmAuth cls message constraint required granted))
      (raiseIf d (Js.Thrown.swarmAuth cls.code text)) := by
  by_cases hc : c
  · rw [raiseIf, raiseIf, if_pos hc, if_pos (h.mp hc)]
    exact .error
  · rw [raiseIf, raiseIf, if_neg hc, if_neg (mt h.mpr hc)]
    exact .ok trivial

theorem SameOutcome.mapM {Q : γ → δ → Prop} {f : γ → Python.Outcome α} {g : δ → Js.Outcome β}
    {ps : List γ} {ns : List δ} (h : List.Forall₂ Q ps ns)
    (hf : ∀ p n, Q p n → SameOutcome R (f p) (g n)) :
    SameOutcome (List.Forall₂ R) (ps.mapM f) (ns.mapM g) := by
  induction h with
  | nil => exact .ok .nil
  | cons hpn _ ih =>
      rw [List.mapM_cons, List.mapM_cons]
      refine (hf _ _ hpn).bind fun a b hab => ?_
      exact ih.bind fun as bs has => .ok (.cons hab has)

theorem mem_of_mapM {f : α → Js.Outcome β} {l : List α} {out : List β} (h : l.mapM f = .ok out)
    {b : β} (hb : b ∈ out) : ∃ a ∈ l, f a = .ok b := by
  induction l generalizing out with
  | nil =>
      obtain rfl : [] = out := Except.ok.inj h
      exact nomatch hb
  | cons a l ih =>
      rw [List.mapM_cons] at h
      obtain ⟨c, hc, h⟩ := bind_eq_ok.mp h
      obtain ⟨cs, hcs, h⟩ := bind_eq_ok.mp h
      obtain rfl : c :: cs = out := Except.ok.inj h
      rcases List.mem_cons.mp hb with rfl | hb
      · exact ⟨a, List.mem_cons_self, hc⟩
      · obtain ⟨a', ha', hf⟩ := ih hcs hb
        exact ⟨a', List.mem_cons_of_mem _ ha', hf⟩

end Outcomes

/-! ## The same rules and claims -/

/-- The same integer. -/
def SameNumber (n : ℤ) (d : Double) : Prop := d.value? = some (n : ℚ)

/-- The same rule. -/
structure SameRule (p : Python.BudgetUsageTracker.BudgetRule) (n : Node.BudgetUsageTracker.BudgetRule) :
    Prop where
  id : n.id = p.id
  issuers : n.issuers = p.issuers
  currency : n.currency = p.currency
  maxAmountMinor : SameNumber p.maxAmountMinor n.maxAmountMinor
  expiresAt : SameNumber p.expiresAt n.expiresAt
  maxCalls : Option.Rel SameNumber p.maxCalls n.maxCalls

/-- The same rules and setting. -/
structure SameConfig (p : Python.BudgetUsageTracker.Config) (n : Node.BudgetUsageTracker.Config) :
    Prop where
  rules : List.Forall₂ SameRule p.rules n.rules
  requireBudget : n.requireBudget = p.requireBudget

/-- The exact value of a pin. -/
def exactPython (v : Python.Value) : Json.Tree Exact Units :=
  v.view Exact.ofPython id (List.map UInt16.toNat)

/-- The exact value of a pin. -/
def exactNode (v : Js.Value) : Json.Tree Exact Units := v.view Exact.ofJs id (List.map UInt16.toNat)

/-- The same claims, as far as the ledgers read them. -/
structure SameLink (p : Python.CapabilityClaims) (n : Node.Claims) : Prop where
  iss : n.iss = p.iss
  jti : n.jti = p.jti
  exp : SameNumber p.exp n.exp
  maxCalls : Option.Rel SameNumber p.constraints.maxCalls n.constraints.maxCalls
  maxAmountUsd : Option.Rel (fun a d => d.value? = a.value?) p.constraints.maxAmountUsd
    n.constraints.maxAmountUsd
  rateLimitPerMin : Option.Rel SameNumber p.constraints.rateLimitPerMin
    n.constraints.rateLimitPerMin
  allowedParams : ∀ key, (n.constraints.allowedParams.lookup key).map exactNode =
    (p.constraints.allowedParams.get? key).map exactPython
  sharedBudget : n.constraints.sharedBudget = p.constraints.sharedBudget

/-! ## Numbers -/

theorem SameNumber.ofInt {n : ℤ} (hn : |n| ≤ 2 ^ 53) : SameNumber n (.ofInt n) := value_ofInt hn

/-- A sum of up to `2 ^ 53` is exact. -/
theorem SameNumber.plus {m n : ℤ} {a b : Double} (ha : SameNumber m a) (hb : SameNumber n b)
    (h : |m + n| ≤ 2 ^ 53) : SameNumber (m + n) (Js.plus a b) := by
  have hsum : ((m : ℚ) + n) = ((m + n : ℤ) : ℚ) := (Int.cast_add m n).symm
  rw [SameNumber, Js.plus, ha, hb]
  simp only [hsum]
  exact nearestTo_intCast h

theorem SameNumber.lessThan {m n : ℤ} {a b : Double} (ha : SameNumber m a) (hb : SameNumber n b) :
    Js.lessThan a b = true ↔ m < n := by
  rw [Js.lessThan_value ha hb, decide_eq_true_eq]
  exact Int.cast_lt

theorem SameNumber.reached {n : ℤ} {d : Double} (h : SameNumber n d) (now : ℚ) :
    Node.BudgetUsageTracker.reached d now = true ↔ (n : ℚ) ≤ now := by
  rw [Node.BudgetUsageTracker.reached, h]
  simp

/-- Three seconds more are exact, but for one expiry. -/
theorem SameNumber.retention {n : ℤ} {d : Double} (h : SameNumber n d) (hn : |n| ≤ maxSafe)
    (hexp : n ≠ 2 ^ 53 - 2) : SameNumber (n + 3) (Js.plus d (.ofInt 3)) := by
  have hthree : SameNumber 3 (.ofInt 3) := .ofInt (by norm_num)
  rw [maxSafe, abs_le] at hn
  by_cases hlast : n = 2 ^ 53 - 1
  · subst hlast
    rw [SameNumber, Js.plus, h, hthree]
    decide +kernel
  · exact h.plus hthree (by rw [abs_le]; omega)

/-! ## Pins -/

/-- A number that is an integer from 0 to `2 ^ 53 - 1`. -/
def minorOf : Json.Tree Exact Units → Option ℤ
  | .scalar (.number (some q)) => if 0 ≤ q ∧ q ≤ (maxSafe : ℚ) ∧ q.den = 1 then some q.num else none
  | _ => none

theorem minorOf_python (v : Option Python.Value) :
    safeMinor v = (v.map exactPython).bind minorOf := by
  cases v with
  | none => rfl
  | some v =>
      cases v with
      | scalar s =>
          cases s with
          | int n =>
              have hle : ((n : ℚ) ≤ (maxSafe : ℚ)) ↔ n ≤ maxSafe := Int.cast_le
              simp [safeMinor, exactPython, minorOf, Exact.ofPython, hle]
          | float d =>
              cases hd : d.value? <;> simp [safeMinor, exactPython, minorOf, Exact.ofPython, hd]
          | _ => rfl
      | str s => rfl
      | arr items => simp [safeMinor, exactPython, minorOf]
      | obj members => simp [safeMinor, exactPython, minorOf]

theorem safe_iff {d : Double} {q : ℚ} (hd : d.value? = some q) :
    Node.BudgetUsageTracker.safe d = true ↔ 0 ≤ q ∧ q ≤ (maxSafe : ℚ) ∧ q.den = 1 := by
  have hzero : (Double.ofInt 0).value? = some 0 := by decide +kernel
  have hmax : (maxSafe : ℚ) = 2 ^ 53 - 1 := by norm_num [maxSafe]
  rw [Node.BudgetUsageTracker.safe, Js.isSafeInteger, hd, Js.lessThan_value hd hzero, hmax]
  simp only [Option.any_some, Bool.and_eq_true, decide_eq_true_eq, Bool.not_eq_true',
    decide_eq_false_iff_not, not_lt, abs_le]
  constructor
  · rintro ⟨⟨hden, -, hle⟩, hnonneg⟩
    exact ⟨hnonneg, hle, hden⟩
  · rintro ⟨hnonneg, hle, hden⟩
    exact ⟨⟨hden, by linarith, hle⟩, hnonneg⟩

theorem safeMinor_range {v : Option Python.Value} {m : ℤ} (h : safeMinor v = some m) :
    0 ≤ m ∧ m ≤ maxSafe := by
  rw [minorOf_python] at h
  obtain ⟨t, -, ht⟩ := Option.bind_eq_some_iff.mp h
  unfold minorOf at ht
  split at ht
  · rename_i q
    obtain ⟨⟨hnonneg, hle, hden⟩, hm⟩ := Option.ite_none_right_eq_some.mp ht
    have hq : q = (m : ℚ) := by
      rw [← Option.some.inj hm, Rat.coe_int_num_of_den_eq_one hden]
    rw [hq] at hnonneg hle
    exact ⟨by exact_mod_cast hnonneg, by exact_mod_cast hle⟩
  · exact nomatch ht

/-- What Node takes for a minor amount. -/
theorem minorOf_node (v : Option Js.Value) :
    Node.BudgetUsageTracker.safeValue (v.getD .undefined) = ((v.map exactNode).bind minorOf).isSome ∧
      ∀ m, (v.map exactNode).bind minorOf = some m →
        SameNumber m ((Node.numberOf (v.getD .undefined)).getD .nan) := by
  cases v with
  | none => exact ⟨rfl, fun m h => by cases h⟩
  | some v =>
      cases v with
      | scalar s =>
          cases s with
          | number d =>
              have hseen : (some (.scalar (.number d) : Js.Value)).map exactNode =
                  some (.scalar (.number d.value?)) := rfl
              have hvalue : Node.BudgetUsageTracker.safeValue ((some (.scalar (.number d))).getD
                  .undefined) = Node.BudgetUsageTracker.safe d := rfl
              rw [hseen, hvalue, Option.bind_some]
              cases hd : d.value? with
              | none =>
                  refine ⟨?_, fun m h => by cases h⟩
                  rw [Node.BudgetUsageTracker.safe, Js.isSafeInteger, hd]
                  rfl
              | some q =>
                  rw [minorOf, Bool.eq_iff_iff, safe_iff hd]
                  refine ⟨by split_ifs with h <;> simp [h], fun m h => ?_⟩
                  obtain ⟨⟨-, -, hden⟩, hm⟩ := Option.ite_none_right_eq_some.mp h
                  rw [SameNumber, ← Option.some.inj hm, Rat.coe_int_num_of_den_eq_one hden]
                  exact hd
          | _ => exact ⟨rfl, fun m h => by cases h⟩
      | str s => exact ⟨rfl, fun m h => by cases h⟩
      | arr items => exact ⟨by simp [exactNode, minorOf, Node.BudgetUsageTracker.safeValue],
          fun m h => absurd h (by simp [exactNode, minorOf])⟩
      | obj members => exact ⟨by simp [exactNode, minorOf, Node.BudgetUsageTracker.safeValue],
          fun m h => absurd h (by simp [exactNode, minorOf])⟩

/-- A pinned string is the same string. -/
theorem str_of_exact {v : Option Python.Value} {w : Option Js.Value}
    (h : w.map exactNode = v.map exactPython) (s : Units) :
    w.getD .undefined = .str s ↔ v = some (.str s) := by
  have hpython : v = some (.str s) ↔ v.map exactPython = some (.str s) := by
    cases v with
    | none => simp
    | some v => cases v <;> simp [exactPython]
  have hnode : w.getD .undefined = .str s ↔ w.map exactNode = some (.str s) := by
    cases w with
    | none => simp [Js.Value.undefined]
    | some w => cases w <;> simp [exactNode]
  rw [hpython, hnode, h]

/-! ## Records -/

/-- The same limits and charge. -/
structure SameLimits (p : Python.BudgetUsageTracker.LedgerRecord)
    (n : Node.BudgetUsageTracker.LedgerRecord) : Prop where
  calls : Option.Rel SameNumber p.calls n.maxCalls
  usd : Option.Rel (fun a d => d.value? = a.value? ∧ Python.nonNegative a = true) p.usd n.maxUsd
  rate : Option.Rel SameNumber p.rate n.rate
  minorLimit : Option.Rel SameNumber p.minorLimit n.minorLimit
  minor : SameNumber p.minor n.minor
  minor_range : 0 ≤ p.minor ∧ p.minor ≤ maxSafe
  unlimited : p.minorLimit = none → p.minor = 0
  limit_range : ∀ k, p.minorLimit = some k → 0 ≤ k ∧ k ≤ maxSafe

/-- The same record. -/
structure SameRecord (p : Python.BudgetUsageTracker.LedgerRecord)
    (n : Node.BudgetUsageTracker.LedgerRecord) : Prop extends SameLimits p n where
  key : ∃ kind : RecordKind, ∃ id, p.key = ledgerKey kind.text id ∧ n.key = nodeText kind id
  expiry : SameNumber p.expiry n.expiry

section Records
variable {pcfg : Python.BudgetUsageTracker.Config} {ncfg : Node.BudgetUsageTracker.Config}
variable {p root leaf : Python.CapabilityClaims} {n nroot nleaf : Node.Claims} {now : ℚ}

theorem CapabilityClaims.abs_exp_le (c : Python.CapabilityClaims) : |c.exp| ≤ maxSafe := by
  have h := c.valid
  simp only [Python.ClaimFields.valid, Bool.and_eq_true, decide_eq_true_eq] at h
  exact h.1.1.1.1.2

theorem SameLink.expiry (h : SameLink p n) (hexp : p.exp ≠ 2 ^ 53 - 2) :
    SameNumber (p.exp + 3) (Js.plus n.exp (.ofInt 3)) :=
  h.exp.retention (CapabilityClaims.abs_exp_le p) hexp

theorem liveTokenRecord_agrees (h : SameLink p n) (hexp : p.exp ≠ 2 ^ 53 - 2) :
    SameOutcome SameRecord (Python.BudgetUsageTracker.liveTokenRecord now p)
      (Node.BudgetUsageTracker.liveTokenRecord now n) := by
  have hexpiry := h.expiry hexp
  refine (sameOutcome_raiseIf (hexpiry.reached now).symm).bind fun _ _ _ => .ok ?_
  have hzero : SameNumber 0 (.ofInt 0) := .ofInt (by norm_num)
  have hrange : (0 : ℤ) ≤ 0 ∧ (0 : ℤ) ≤ maxSafe := by decide
  refine ⟨⟨h.maxCalls, ?_, h.rateLimitPerMin, .none, hzero, hrange, fun _ => rfl, nofun⟩,
    ⟨.token, p.jti, rfl, congrArg (nodeText .token) h.jti⟩, hexpiry⟩
  · have husd := h.maxAmountUsd
    have hpos : ∀ d, p.constraints.maxAmountUsd = some d → Python.nonNegative d = true :=
      fun d hd => p.constraints.amount_nonNegative hd
    rw [Python.BudgetUsageTracker.tokenRecord, Node.BudgetUsageTracker.tokenRecord]
    generalize p.constraints.maxAmountUsd = a at husd hpos
    generalize n.constraints.maxAmountUsd = d at husd
    cases husd with
    | none => exact .none
    | some hvalue => exact .some ⟨hvalue, hpos _ rfl⟩

/-- The same rule goes by an id. -/
theorem SameConfig.rule? (h : SameConfig pcfg ncfg) (id : Units) :
    Option.Rel SameRule (pcfg.rule? id) (ncfg.rule? id) := by
  have hfind : ∀ {ps ns}, List.Forall₂ SameRule ps ns →
      Option.Rel SameRule (ps.find? fun r => r.id = id) (ns.find? fun r => r.id = id) := by
    intro ps ns hrules
    induction hrules with
    | nil => exact .none
    | @cons p n ps ns hpn _ ih =>
        rw [List.find?_cons, List.find?_cons, hpn.id]
        by_cases hid : p.id = id
        · simpa [hid] using Option.Rel.some hpn
        · simpa [hid] using ih
  exact hfind h.rules

theorem declared_agrees (hcfg : SameConfig pcfg ncfg) (budget : Option Units) :
    SameOutcome SameRule
      (orRaise (budget.bind pcfg.rule?)
        (Python.BudgetUsageTracker.deny "Token must pin a configured budget_id"))
      (orRaise (budget.bind ncfg.rule?)
        (Node.BudgetUsageTracker.deny "Token must pin a configured budget_id")) := by
  cases budget with
  | none => exact .error
  | some id =>
      have hrule := hcfg.rule? id
      rw [Option.bind_some, Option.bind_some]
      generalize pcfg.rule? id = a at hrule
      generalize ncfg.rule? id = b at hrule
      cases hrule with
      | none => exact .error
      | some h => exact .ok h

/-- The amount a token pins. -/
theorem minor_agrees {pins : Python.Dict} {npins : Js.Object} {key : Units} {text : List Python.Piece}
    {constraint : String} {ntext : String}
    (h : (npins.lookup key).map exactNode = (pins.get? key).map exactPython) :
    SameOutcome (fun m _ => SameNumber m ((Node.numberOf (npins.get key)).getD .nan) ∧ 0 ≤ m ∧ m ≤ maxSafe)
      (orRaise (safeMinor (pins.get? key)) (Python.constraintViolation text constraint))
      (raiseIf (!Node.BudgetUsageTracker.safeValue (npins.get key))
        (Node.BudgetUsageTracker.deny ntext)) := by
  obtain ⟨hsafe, hnumber⟩ := minorOf_node (npins.lookup key)
  rw [h, ← minorOf_python] at hsafe hnumber
  rw [Js.Object.get, hsafe]
  cases hm : safeMinor (pins.get? key) with
  | none => exact .error
  | some m => exact .ok ⟨hnumber m hm, safeMinor_range hm⟩

theorem maxAmountMinor_range (rule : Python.BudgetUsageTracker.BudgetRule) :
    0 ≤ rule.maxAmountMinor ∧ rule.maxAmountMinor ≤ maxSafe := by
  have h := rule.valid
  simp only [Python.BudgetUsageTracker.RuleFields.valid, Bool.and_eq_true, decide_eq_true_eq] at h
  exact h.1.1.2

theorem budgetRecord_agrees (hcfg : SameConfig pcfg ncfg) (hroot : SameLink root nroot)
    (hleaf : SameLink leaf nleaf) :
    SameOutcome SameRecord (Python.BudgetUsageTracker.budgetRecord pcfg root leaf now)
      (Node.BudgetUsageTracker.budgetRecord ncfg nroot nleaf now) := by
  rw [Python.BudgetUsageTracker.budgetRecord, Node.BudgetUsageTracker.budgetRecord, hleaf.sharedBudget]
  refine (declared_agrees hcfg _).bind fun rule nrule hrule => ?_
  refine (sameOutcome_raiseIf (by rw [hroot.iss, hrule.issuers])).bind fun _ _ _ => ?_
  refine (sameOutcome_raiseIf (hrule.expiresAt.reached now).symm).bind fun _ _ _ => ?_
  refine (minor_agrees (hleaf.allowedParams _)).bind fun minor _ hminor => ?_
  have hcurrency := str_of_exact (hleaf.allowedParams (lit "currency")) rule.currency
  refine (sameOutcome_raiseIf ?_).bind fun _ _ _ => .ok ?_
  · rw [hrule.currency]
    exact (not_congr hcurrency).symm
  · refine ⟨⟨hrule.maxCalls, .none, .none, .some hrule.maxAmountMinor, hminor.1, hminor.2, nofun,
      fun k hk => ?_⟩, ⟨.budget, rule.id, rfl, congrArg (nodeText .budget) hrule.id⟩, hrule.expiresAt⟩
    exact Option.some.inj hk ▸ maxAmountMinor_range rule

theorem head?_agrees {α β : Type} {R : α → β → Prop} {as : List α} {bs : List β}
    (h : List.Forall₂ R as bs) : Option.Rel R as.head? bs.head? := by
  cases h with
  | nil => exact .none
  | cons hab _ => exact .some hab

theorem getLast?_agrees {α β : Type} {R : α → β → Prop} {as : List α} {bs : List β}
    (h : List.Forall₂ R as bs) : Option.Rel R as.getLast? bs.getLast? := by
  rw [← List.head?_reverse, ← List.head?_reverse]
  exact head?_agrees (List.forall₂_reverse_iff.mpr h)

/-- **The same records.** -/
theorem records_agree {pchain : List Python.CapabilityClaims} {nchain : List Node.Claims}
    (hcfg : SameConfig pcfg ncfg) (hchain : List.Forall₂ SameLink pchain nchain)
    (hexp : ∀ p ∈ pchain, p.exp ≠ 2 ^ 53 - 2) :
    SameOutcome (List.Forall₂ SameRecord) (Python.BudgetUsageTracker.records pcfg pchain now)
      (Node.BudgetUsageTracker.records ncfg nchain now) := by
  have hjtis : nchain.map (·.jti) = pchain.map (·.jti) := by
    clear hexp
    induction hchain with
    | nil => rfl
    | cons h _ ih => rw [List.map_cons, List.map_cons, h.jti, ih]
  have hnil : pchain = [] ↔ nchain = [] := by
    rw [← List.map_eq_nil_iff, ← hjtis, List.map_eq_nil_iff]
  have hlive : List.Forall₂ (fun p n => SameLink p n ∧ p.exp ≠ 2 ^ 53 - 2) pchain nchain :=
    List.forall₂_iff_zip.mpr ⟨hchain.length_eq, fun hmem =>
      ⟨(List.forall₂_iff_zip.mp hchain).2 hmem, hexp _ (List.of_mem_zip hmem).1⟩⟩
  rw [Python.BudgetUsageTracker.records, Node.BudgetUsageTracker.records]
  refine (sameOutcome_raiseIf (by rw [hjtis, hnil])).bind fun _ _ _ => ?_
  refine (SameOutcome.mapM hlive fun p n h => liveTokenRecord_agrees h.1 h.2).bind
    fun precs nrecs hrecs => ?_
  have hroot := head?_agrees hchain
  have hleaf := getLast?_agrees hchain
  generalize pchain.head? = proot at hroot ⊢
  generalize nchain.head? = nroot at hroot ⊢
  generalize pchain.getLast? = pleaf at hleaf ⊢
  generalize nchain.getLast? = nleaf at hleaf ⊢
  cases hroot with
  | none => exact .ok hrecs
  | some hroot =>
      cases hleaf with
      | none => exact .ok hrecs
      | some hleaf =>
          simp only [hleaf.sharedBudget, hcfg.requireBudget]
          split_ifs
          · exact .ok hrecs
          · refine (budgetRecord_agrees hcfg hroot hleaf).bind fun precord nrecord hrecord => ?_
            exact .ok (List.rel_append hrecs (.cons hrecord .nil))

end Records

/-! ## Entries -/

/-- What an entry keeps after charges of these amounts. -/
structure Holds (amounts : List Amount) (p : Python.BudgetUsageTracker.Entry)
    (n : Node.BudgetUsageTracker.Entry) : Prop where
  count : p.calls = amounts.length
  calls : SameNumber p.calls n.calls
  total : p.usd = decimalText (pythonTotal amounts)
  usd : n.usd = p.usd.text false
  minor : SameNumber p.minor n.minor
  minor_range : 0 ≤ p.minor ∧ p.minor ≤ maxSafe
  timestamps : n.timestamps = p.timestamps
  timestamps_length : p.timestamps.length ≤ amounts.length

/-- The same entry. -/
structure SameEntry (p : Python.BudgetUsageTracker.Entry) (n : Node.BudgetUsageTracker.Entry) :
    Prop where
  calls : SameNumber p.calls n.calls
  usd : n.usd = p.usd.text false
  minor : SameNumber p.minor n.minor
  timestamps : n.timestamps = p.timestamps
  expiry : SameNumber p.expiry n.expiry

theorem holds_missing : Holds [] .missing .missing where
  count := rfl
  calls := .ofInt (by norm_num [Python.BudgetUsageTracker.Entry.missing])
  total := by decide
  usd := by decide
  minor := .ofInt (by norm_num [Python.BudgetUsageTracker.Entry.missing])
  minor_range := by decide
  timestamps := rfl
  timestamps_length := le_rfl

/-! ## One charge -/

/-- The value of an amount is its magnitude's. -/
theorem Amount.value (a : Amount) : a.number.value? = some a.mag.value := by
  obtain ⟨neg, x, hnumber, hsign⟩ := a.exists_finite
  rw [Amount.mag, hnumber, Double.value?]
  cases neg with
  | false => rfl
  | true =>
      have hzero : x.sig = 0 := by simpa using hsign
      simp [Binary64.value, hzero]

/-- Equal limits have the same decimal. -/
theorem Amount.decimal_eq {a b : Amount} (h : b.number.value? = a.number.value?) :
    b.decimal = a.decimal := by
  rw [a.value, b.value, Option.some.injEq] at h
  rw [Amount.decimal, Amount.decimal, Binary64.value_injective h]

theorem lt_of_le_pow53 {k : ℕ} (hk : k ≤ 2 ^ 53) : k < 10 ^ 300 := by
  have hpow : ∀ m, 16 ≤ m → k < 10 ^ m := fun m hm =>
    (hk.trans_lt (by norm_num : 2 ^ 53 < 10 ^ 16)).trans_le (Nat.pow_le_pow_right (by norm_num) hm)
  exact hpow 300 (by norm_num)

section Charge
variable {amounts : List Amount} {p : Python.BudgetUsageTracker.Entry}
variable {n : Node.BudgetUsageTracker.Entry} {a : Amount} {now : ℚ}

theorem Holds.next_calls (h : Holds amounts p n) (hlen : amounts.length < 2 ^ 53) :
    SameNumber (p.calls + 1 : ℕ) (Js.plus n.calls (.ofInt 1)) := by
  have hone : SameNumber 1 (.ofInt 1) := .ofInt (by norm_num)
  have hle : |((p.calls : ℤ) + 1)| ≤ 2 ^ 53 := by
    rw [h.count, abs_of_nonneg (by positivity)]
    exact_mod_cast hlen
  exact_mod_cast h.calls.plus hone hle

theorem Holds.next_total (h : Holds amounts p n) :
    decimalSum p.usd.decimal a.mag = pythonTotal (amounts ++ [a]) := by
  rw [pythonTotal_append, h.total]

theorem Holds.next_usd (h : Holds amounts p n) (hlen : amounts.length < 2 ^ 53) :
    Node.addAmounts n.usd (Js.numberText a.number) =
      some ((decimalText (pythonTotal (amounts ++ [a]))).text false) := by
  have hlast : (amounts ++ [a]).length ≤ 2 ^ 53 := by
    rw [List.length_append, List.length_singleton]
    exact hlen
  have hkept := kept amounts (lt_of_le_pow53 hlen.le)
  have hnext := kept (amounts ++ [a]) (lt_of_le_pow53 hlast)
  rw [h.usd, h.total, ← nodeTotal_append hkept.text, hnext.text]

/-- Both compare the total with the limit exactly. -/
theorem exceeds_agrees {charged : List Amount} (hlen : charged.length ≤ 2 ^ 53)
    {pusd nusd : Option Double}
    (h : Option.Rel (fun a d => d.value? = a.value? ∧ Python.nonNegative a = true) pusd nusd) :
    ∃ b, Node.BudgetUsageTracker.exceedsLimit ((decimalText (pythonTotal charged)).text false) nusd =
        some b ∧
      ((pusd.any fun d => (limitDecimal d).value < (pythonTotal charged).value) = true ↔ b = true) := by
  have hagree := totals_agree charged (lt_of_le_pow53 hlen) charged List.prefix_rfl
  cases h with
  | none => exact ⟨false, rfl, by simp⟩
  | @some d e h =>
      obtain ⟨hvalue, hd⟩ := h
      have he : Python.nonNegative e = true := by
        rw [Python.nonNegative, hvalue]
        exact hd
      have hpython := hagree.python_exceeds ⟨d, hd⟩
      have hnode := hagree.node_exceeds ⟨e, he⟩
      rw [hagree.text, Option.bind_some] at hnode
      refine ⟨_, hnode, ?_⟩
      rw [Option.any_some, decide_eq_true_eq, decide_eq_true_eq, Amount.decimal_eq (a := ⟨d, hd⟩) hvalue]
      exact hpython

/-- Both compare the minor total with the limit exactly, and one within it is exact. -/
theorem minor_limit_agrees {r : Python.BudgetUsageTracker.LedgerRecord}
    {s : Node.BudgetUsageTracker.LedgerRecord} (hr : SameLimits r s) (h : Holds amounts p n) :
    ((r.minorLimit.any fun limit => limit < p.minor + r.minor) = true ↔
      (s.minorLimit.any fun limit => Js.lessThan limit (Js.plus n.minor s.minor)) = true) ∧
    ((r.minorLimit.any fun limit => limit < p.minor + r.minor) = false →
      SameNumber (p.minor + r.minor) (Js.plus n.minor s.minor) ∧ p.minor + r.minor ≤ maxSafe) := by
  obtain ⟨hnonneg, hle⟩ := h.minor_range
  obtain ⟨hnonneg', hle'⟩ := hr.minor_range
  rw [maxSafe] at hle hle'
  have hexact : p.minor + r.minor ≤ maxSafe →
      SameNumber (p.minor + r.minor) (Js.plus n.minor s.minor) := by
    intro hsum
    rw [maxSafe] at hsum
    exact h.minor.plus hr.minor (by rw [abs_le]; omega)
  have hlimits := hr.minorLimit
  have hunlimited := hr.unlimited
  have hrange := hr.limit_range
  generalize r.minorLimit = limit at hlimits hunlimited hrange ⊢
  generalize s.minorLimit = slimit at hlimits ⊢
  cases hlimits with
  | none =>
      have hzero : r.minor = 0 := hunlimited rfl
      have hsum : p.minor + r.minor ≤ maxSafe := by rw [maxSafe]; omega
      exact ⟨Iff.rfl, fun _ => ⟨hexact hsum, hsum⟩⟩
  | @some k d hk =>
      obtain ⟨hk0, hk1⟩ := hrange k rfl
      rw [maxSafe] at hk1
      have hsmall : |k| < 2 ^ 53 := by rw [abs_lt]; omega
      have hsum : |p.minor + r.minor| ≤ 2 ^ 55 := by rw [abs_le]; omega
      obtain ⟨y, hy, hlt⟩ := small_lt_nearestTo_iff hsmall hsum
      have hplus : (Js.plus n.minor s.minor).value? = some y := by
        rw [Js.plus, h.minor, hr.minor]
        simpa using hy
      refine ⟨?_, fun hfalse => ?_⟩
      · rw [Option.any_some, Option.any_some, decide_eq_true_eq, Js.lessThan_value hk hplus,
          decide_eq_true_eq]
        exact hlt.symm
      · have hle : p.minor + r.minor ≤ maxSafe := by
          rw [Option.any_some, decide_eq_false_iff_not] at hfalse
          rw [maxSafe]
          omega
        exact ⟨hexact hle, hle⟩

variable (a now) in
/-- **One charge**: the same checks refuse it, and it leaves the same counters. -/
theorem pending_agrees {r : Python.BudgetUsageTracker.LedgerRecord}
    {s : Node.BudgetUsageTracker.LedgerRecord} (hr : SameLimits r s) (h : Holds amounts p n)
    (hlen : amounts.length < 2 ^ 53) :
    SameOutcome (fun p' n' => Holds (amounts ++ [a]) p' n' ∧ p'.expiry = r.expiry ∧ n'.expiry = s.expiry)
      (Python.BudgetUsageTracker.pending r p now a.mag)
      (Node.BudgetUsageTracker.pending s n now a.number) := by
  have hcalls := h.next_calls hlen
  have hlast : (amounts ++ [a]).length ≤ 2 ^ 53 := by
    rw [List.length_append, List.length_singleton]
    exact hlen
  obtain ⟨b, hexceeds, hb⟩ := exceeds_agrees hlast hr.usd
  obtain ⟨hminor, hminorExact⟩ := minor_limit_agrees hr h
  have hcount : (r.calls.any fun k : ℤ => k < (p.calls : ℤ) + 1) = true ↔
      (s.maxCalls.any fun k => Js.lessThan k (Js.plus n.calls (.ofInt 1))) = true := by
    have hlimits := hr.calls
    generalize r.calls = limit at hlimits ⊢
    generalize s.maxCalls = slimit at hlimits ⊢
    cases hlimits with
    | none => exact Iff.rfl
    | some hk => simpa using (hk.lessThan hcalls).symm
  -- no more stamps are kept than calls are counted
  have hstamps : (recentStamps p.timestamps now).length ≤ amounts.length :=
    (List.length_filter_le _ _).trans h.timestamps_length
  have hrecent : SameNumber ((recentStamps p.timestamps now).length + 1)
      (Js.plus (.ofInt (recentStamps p.timestamps now).length) (.ofInt 1)) := by
    have hone : SameNumber 1 (.ofInt 1) := .ofInt (by norm_num)
    have hlength : SameNumber (recentStamps p.timestamps now).length
        (.ofInt (recentStamps p.timestamps now).length) := .ofInt (by rw [abs_le]; omega)
    exact hlength.plus hone (by rw [abs_le]; omega)
  have hrate : (r.rate.any fun k : ℤ => k < (recentStamps p.timestamps now).length + 1) = true ↔
      (s.rate.any fun k => Js.lessThan k
        (Js.plus (.ofInt (recentStamps p.timestamps now).length) (.ofInt 1))) = true := by
    have hlimits := hr.rate
    generalize r.rate = limit at hlimits ⊢
    generalize s.rate = slimit at hlimits ⊢
    cases hlimits with
    | none => exact Iff.rfl
    | some hk => simpa using (hk.lessThan hrecent).symm
  have hsome : s.rate.isSome = r.rate.isSome := by
    have hlimits := hr.rate
    generalize r.rate = limit at hlimits ⊢
    generalize s.rate = slimit at hlimits ⊢
    cases hlimits <;> rfl
  rw [Python.BudgetUsageTracker.pending, Node.BudgetUsageTracker.pending, h.next_usd hlen,
    h.timestamps]
  simp only [h.next_total, orRaise_some_bind]
  refine (sameOutcome_raiseIf hcount).bind fun _ _ _ => ?_
  rw [hexceeds, orRaise_some_bind]
  refine (sameOutcome_raiseIf hb).bind fun _ _ _ => ?_
  refine (sameOutcome_raiseIf hrate).bind fun _ _ _ => ?_
  by_cases hover : (r.minorLimit.any fun limit => limit < p.minor + r.minor) = true
  · rw [raiseIf, raiseIf, if_pos hover, if_pos (hminor.mp hover)]
    exact .error
  · obtain ⟨hsum, hle⟩ := hminorExact (Bool.eq_false_iff.mpr hover)
    rw [raiseIf, raiseIf, if_neg hover, if_neg (mt hminor.mpr hover)]
    have husd : decimalText (decimalSum p.usd.decimal a.mag) = decimalText (pythonTotal (amounts ++ [a])) :=
      congrArg decimalText h.next_total
    have hkept : (if s.rate.isSome then Node.BudgetUsageTracker.recentStamps p.timestamps now ++ [now]
        else []) = if r.rate.isSome then recentStamps p.timestamps now ++ [now] else [] := by
      rw [hsome]
      rfl
    have hnonneg : 0 ≤ p.minor + r.minor := add_nonneg h.minor_range.1 hr.minor_range.1
    refine .ok ⟨⟨?_, hcalls, husd, congrArg (Layout.text false) husd.symm, hsum, ⟨hnonneg, hle⟩, hkept,
      ?_⟩, rfl, rfl⟩
    · rw [List.length_append, List.length_singleton, ← h.count]
      rfl
    · rw [Python.BudgetUsageTracker.LedgerRecord.after, List.length_append, List.length_singleton]
      split_ifs
      · rw [List.length_append, List.length_singleton]
        exact Nat.succ_le_succ hstamps
      · exact Nat.zero_le _

end Charge

end SwarmAuth.Interop
