import SwarmAuth.Python.Budgets
import SwarmAuth.Node.Amounts

/-!
# Running totals

Python sums amounts in decimals of a thousand digits, Node in integers over a common scale.
Amounts have 613 digits at most between the first of a total and the last: neither rounds.

## Main definitions

* `Amount` — an amount, as both languages read it.
* `pythonTotal`, `nodeTotal` — the running totals.
* `Agree`, `totals_agree` — they are the exact sum, in one text.
-/
namespace SwarmAuth.Interop

open Python (amountDecimal decimalSum limitDecimal value_amountDecimal le_exp_amountDecimal)
open Python.BudgetUsageTracker (decimalText value_decimalText le_exp_decimalText)

/-! ## Amounts -/

/-- A finite number that is not negative. -/
structure Amount where
  number : Double
  valid : Python.nonNegative number = true

/-- The magnitude of an amount; zero may have a sign. -/
def Amount.mag (a : Amount) : Binary64 :=
  match a.number with
  | .finite _ x => x
  | _ => .zero

/-- The shortest decimal that reads back to an amount. -/
def Amount.decimal (a : Amount) : ℚ := a.mag.shortest.value

theorem Amount.exists_finite (a : Amount) :
    ∃ neg x, a.number = .finite neg x ∧ (neg && decide (x.sig ≠ 0)) = false := by
  obtain ⟨number, valid⟩ := a
  cases number with
  | finite neg x =>
      refine ⟨neg, x, rfl, ?_⟩
      cases neg with
      | false => rfl
      | true =>
          by_contra hsig
          have hpos := Binary64.value_pos (x := x) (by simpa using hsig)
          simp [Python.nonNegative, Double.value?] at valid
          linarith
  | inf neg => cases valid
  | nan => cases valid

theorem Amount.validated (a : Amount) :
    Python.validatedAmount (.scalar (.float a.number)) = .ok a.mag := by
  obtain ⟨neg, x, hnumber, hsign⟩ := a.exists_finite
  have hsign' : ¬ (neg = true ∧ x.sig ≠ 0) := by simpa using hsign
  rw [Amount.mag, hnumber, Python.validatedAmount, Python.finiteNonNegative, if_neg hsign']

theorem Amount.text (a : Amount) :
    Js.numberText a.number = (Js.numberLayout a.mag.shortest).text false := by
  obtain ⟨neg, x, hnumber, hsign⟩ := a.exists_finite
  rw [Amount.mag, hnumber, Js.numberText, hsign]

theorem Amount.limit (a : Amount) : limitDecimal a.number = amountDecimal a.mag := by
  obtain ⟨neg, x, hnumber, -⟩ := a.exists_finite
  rw [Amount.mag, hnumber, limitDecimal]

/-! ## Totals -/

/-- Python's total: each sum starts from the text of the one before. -/
def pythonTotal (amounts : List Amount) : Decimal :=
  amounts.foldl (fun total a => decimalSum (decimalText total).decimal a.mag) ⟨0, 0⟩

/-- Node's total, a text. -/
def nodeTotal (amounts : List Amount) : Option (List ℕ) :=
  amounts.foldlM (fun text a => Node.addAmounts text (Js.numberText a.number)) (Json.codes "0")

/-- The exact sum. -/
def exactTotal (amounts : List Amount) : ℚ := (amounts.map Amount.decimal).sum

/-- Both totals are the exact sum, in one canonical text, whatever the order of the amounts, and
exceed the limits it exceeds. -/
structure Agree (amounts : List Amount) : Prop where
  text : nodeTotal amounts = some ((decimalText (pythonTotal amounts)).text false)
  value : (pythonTotal amounts).value = exactTotal amounts
  text_value : (decimalText (pythonTotal amounts)).decimal.value = exactTotal amounts
  canonical : (decimalText (pythonTotal amounts)).Canonical
  unordered : ∀ other, other.Perm amounts → nodeTotal other = nodeTotal amounts ∧
    decimalText (pythonTotal other) = decimalText (pythonTotal amounts)
  python_exceeds : ∀ limit : Amount,
    (limitDecimal limit.number).value < (pythonTotal amounts).value ↔
      limit.decimal < exactTotal amounts
  node_exceeds : ∀ limit : Amount,
    (nodeTotal amounts).bind (fun text => Node.amountExceeds text (Js.numberText limit.number)) =
      some (decide (limit.decimal < exactTotal amounts))

theorem exactTotal_append (amounts : List Amount) (a : Amount) :
    exactTotal (amounts ++ [a]) = exactTotal amounts + a.decimal := by
  simp [exactTotal]

theorem exactTotal_le (amounts : List Amount) : exactTotal amounts ≤ amounts.length * 10 ^ (313 : ℤ) := by
  induction amounts using List.reverseRecOn with
  | nil => simp [exactTotal]
  | append_singleton amounts a ih =>
      have ha := a.mag.value_shortest_lt.le
      rw [exactTotal_append, List.length_append, List.length_singleton, Nat.cast_add, add_mul,
        Nat.cast_one, one_mul]
      exact add_le_add ih ha

theorem exactTotal_lt {amounts : List Amount} (h : amounts.length < 10 ^ 300) :
    exactTotal amounts < 10 ^ (613 : ℤ) := by
  have hlen : (amounts.length : ℚ) < (10 : ℚ) ^ (300 : ℤ) := by exact_mod_cast h
  calc exactTotal amounts ≤ amounts.length * (10 : ℚ) ^ (313 : ℤ) := exactTotal_le amounts
    _ < (10 : ℚ) ^ (300 : ℤ) * 10 ^ (313 : ℤ) := by gcongr
    _ = 10 ^ (613 : ℤ) := by rw [← zpow_add₀ (by norm_num)]; norm_num

/-- What a total keeps from sum to sum. -/
structure Kept (amounts : List Amount) : Prop where
  text : nodeTotal amounts = some ((decimalText (pythonTotal amounts)).text false)
  value : (pythonTotal amounts).value = exactTotal amounts
  exp_le : (pythonTotal amounts).exp ≤ 0
  le_exp : -340 ≤ (pythonTotal amounts).exp

theorem Kept.canonical {amounts : List Amount} (h : Kept amounts) :
    (decimalText (pythonTotal amounts)).Canonical :=
  canonical_positional fun _ => h.exp_le

theorem kept_nil : Kept [] := ⟨by decide, by simp [pythonTotal, exactTotal, Decimal.value], le_rfl,
  by decide⟩

theorem pythonTotal_append (amounts : List Amount) (a : Amount) :
    pythonTotal (amounts ++ [a]) =
      decimalSum (decimalText (pythonTotal amounts)).decimal a.mag := by
  rw [pythonTotal, List.foldl_append, List.foldl_cons, List.foldl_nil, ← pythonTotal]

theorem nodeTotal_append {amounts : List Amount} {a : Amount} {text : List ℕ}
    (h : nodeTotal amounts = some text) :
    nodeTotal (amounts ++ [a]) = Node.addAmounts text (Js.numberText a.number) := by
  rw [nodeTotal] at h
  rw [nodeTotal, List.foldlM_append, h, Option.bind_eq_bind, Option.bind_some]
  exact bind_pure _

/-- **One sum.** Below `10 ^ 613` Python does not round, and both texts are canonical. -/
theorem Kept.append {amounts : List Amount} {a : Amount} (h : Kept amounts)
    (hlen : (amounts ++ [a]).length < 10 ^ 300) : Kept (amounts ++ [a]) := by
  have hpython := pythonTotal_append amounts a
  set l := decimalText (pythonTotal amounts) with hl
  have hvalue : l.decimal.value = exactTotal amounts := by rw [hl, value_decimalText, h.value]
  have hexp : l.decimal.exp ≤ 0 := by
    rw [Layout.decimal, h.canonical.no_exponent]
    simp
  have hfine : -340 ≤ l.decimal.exp := le_exp_decimalText h.le_exp
  have hamount : (amountDecimal a.mag).value = a.decimal := value_amountDecimal a.mag
  have hbound : l.decimal.value + (amountDecimal a.mag).value < 10 ^ (613 : ℤ) := by
    rw [hvalue, hamount, ← exactTotal_append]
    exact exactTotal_lt hlen
  have hsum : pythonTotal (amounts ++ [a]) = l.decimal.exactSum (amountDecimal a.mag) := by
    rw [hpython, decimalSum, Decimal.add_of_lt hbound hfine (le_exp_amountDecimal a.mag) (by norm_num)]
  have hexact : (pythonTotal (amounts ++ [a])).value = exactTotal (amounts ++ [a]) := by
    rw [hsum, Decimal.value_exactSum, hvalue, hamount, exactTotal_append]
  have hexp' : (pythonTotal (amounts ++ [a])).exp ≤ 0 := by
    rw [hsum]
    exact (min_le_left _ _).trans hexp
  have hvalid := Js.numberLayout_valid a.mag
  have hlayout : Node.sumLayout l (Js.numberLayout a.mag.shortest) =
      decimalText (pythonTotal (amounts ++ [a])) := by
    refine (Node.sumLayout_canonical _ _).eq_of_value (canonical_positional fun _ => hexp') ?_
    rw [Node.value_sumLayout, hvalue, Js.value_numberLayout]
    exact ((value_decimalText _).trans (hexact.trans (exactTotal_append amounts a))).symm
  refine ⟨?_, hexact, hexp', ?_⟩
  · rw [nodeTotal_append h.text, a.text, Node.addAmounts_text h.canonical.toValid hvalid, hlayout]
  · rw [hsum]
    exact le_min hfine (le_exp_amountDecimal a.mag)

theorem kept (amounts : List Amount) (hlen : amounts.length < 10 ^ 300) : Kept amounts := by
  induction amounts using List.reverseRecOn with
  | nil => exact kept_nil
  | append_singleton amounts a ih =>
      refine (ih ?_).append hlen
      rw [List.length_append] at hlen
      omega

theorem Kept.agree {amounts : List Amount} (h : Kept amounts)
    (hother : ∀ other : List Amount, other.Perm amounts → Kept other) : Agree amounts := by
  have htext : (decimalText (pythonTotal amounts)).decimal.value = exactTotal amounts :=
    (value_decimalText _).trans h.value
  refine ⟨h.text, h.value, htext, h.canonical, ?_, ?_, ?_⟩
  · intro other hperm
    have hsum : exactTotal other = exactTotal amounts := (hperm.map Amount.decimal).sum_eq
    have hkept := hother other hperm
    have hsame : decimalText (pythonTotal other) = decimalText (pythonTotal amounts) := by
      refine hkept.canonical.eq_of_value h.canonical ?_
      rw [value_decimalText, value_decimalText, hkept.value, h.value, hsum]
    exact ⟨by rw [hkept.text, h.text, hsame], hsame⟩
  · intro limit
    rw [limit.limit, value_amountDecimal, h.value]
    rfl
  · intro limit
    rw [h.text, Option.bind_some, limit.text,
      Node.amountExceeds_text h.canonical.toValid (Js.numberLayout_valid limit.mag), htext,
      Js.value_numberLayout]
    rfl

/-- **Totals agree** after every amount of a sequence. -/
theorem totals_agree (amounts : List Amount) (hlen : amounts.length < 10 ^ 300) :
    ∀ charged, charged <+: amounts → Agree charged := by
  intro charged hprefix
  have hshort : charged.length < 10 ^ 300 := hprefix.length_le.trans_lt hlen
  refine (kept charged hshort).agree fun other hperm => kept other ?_
  rwa [hperm.length_eq]

/-- A half dollar and two. -/
def sampleAmounts : List Amount :=
  [⟨.finite false ⟨2 ^ 52, -53, Binary64.least_lt, by norm_num, by norm_num, Or.inl le_rfl⟩,
      by decide +kernel⟩,
    ⟨.finite false ⟨2 ^ 52, -51, Binary64.least_lt, Binary64.exp_two_ge, Binary64.exp_two_le, Or.inl le_rfl⟩,
      by decide +kernel⟩]

theorem totals_agree_sample : nodeTotal sampleAmounts = some (Json.codes "2.5") ∧ Agree sampleAmounts :=
  ⟨by decide +kernel, totals_agree sampleAmounts (by decide +kernel) _ List.prefix_rfl⟩

end SwarmAuth.Interop
