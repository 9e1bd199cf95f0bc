import Mathlib.Data.Int.Log
import Mathlib.Data.Rat.Floor
import Mathlib.Data.Nat.Digits.Defs
import Mathlib.Tactic

/-!
# Decimals

Non-negative decimals `coeff · 10 ^ exp`, and addition in a context of `prec`
significant digits that rounds half to even. Addition is exact as long as the sum
fits the precision above the finer exponent, and never falls below a power of ten
that the exact sum reaches; these two facts are all that accounting needs of it.

## Main definitions

* `roundHalfEven` — the nearest natural number, ties to even.
* `Decimal`, `Decimal.value` — decimals and the rationals they denote.
* `Decimal.add` — context addition.
* `Decimal.value_add_eq_iff` — when it is exact.
-/
namespace SwarmAuth

/-- The nearest natural number, ties to even. -/
def roundHalfEven (q : ℚ) : ℕ :=
  let n := ⌊q⌋₊
  if q - n < 1 / 2 then n
  else if 1 / 2 < q - n then n + 1
  else if n % 2 = 0 then n else n + 1

/-- A number within a half of `m` rounds to `m`. -/
theorem roundHalfEven_eq {q : ℚ} {m : ℕ} (h0 : 0 ≤ q) (h : |q - m| < 1 / 2) :
    roundHalfEven q = m := by
  obtain ⟨hlo, hhi⟩ := abs_lt.mp h
  have hfloor := Nat.floor_le h0
  have hceil := Nat.lt_floor_add_one q
  simp only [roundHalfEven]
  rcases le_or_gt (m : ℚ) q with hm | hm
  · have hn : ⌊q⌋₊ = m := (Nat.floor_eq_iff h0).mpr ⟨hm, by linarith⟩
    rw [hn, if_pos (by linarith)]
  · have hn : ⌊q⌋₊ + 1 = m := by
      have h1 : ⌊q⌋₊ < m := (Nat.floor_lt h0).mpr hm
      have h2 : (m : ℚ) < ⌊q⌋₊ + 2 := by linarith
      have h3 : m < ⌊q⌋₊ + 2 := by exact_mod_cast h2
      omega
    have hcast : (⌊q⌋₊ : ℚ) + 1 = m := by exact_mod_cast hn
    rw [if_neg (by linarith), if_pos (by linarith), hn]

/-- Rounding does not cross a natural number from above. -/
theorem le_roundHalfEven {q : ℚ} {m : ℕ} (h : (m : ℚ) ≤ q) : m ≤ roundHalfEven q := by
  have hn : m ≤ ⌊q⌋₊ := Nat.le_floor h
  simp only [roundHalfEven]
  split_ifs <;> omega

/-- A non-negative decimal `coeff · 10 ^ exp`. -/
structure Decimal where
  coeff : ℕ
  exp : ℤ
  deriving DecidableEq, Repr

namespace Decimal

/-- The rational a decimal denotes. -/
def value (d : Decimal) : ℚ := d.coeff * (10 : ℚ) ^ d.exp

theorem value_nonneg (d : Decimal) : 0 ≤ d.value := by
  unfold value
  positivity

/-- The number of decimal digits of `n`, none for zero. -/
def digitCount (n : ℕ) : ℕ := (Nat.digits 10 n).length

theorem lt_pow_digitCount (n : ℕ) : n < 10 ^ digitCount n :=
  Nat.lt_base_pow_length_digits (by norm_num)

theorem pow_digitCount_le {n : ℕ} (h : n ≠ 0) : 10 ^ digitCount n ≤ 10 * n :=
  Nat.base_pow_length_digits_le' 8 n h

/-- Keep `prec` significant digits, ties to even. -/
def round (prec : ℕ) (d : Decimal) : Decimal :=
  let drop := digitCount d.coeff - prec
  if drop = 0 then d
  else
    let c := roundHalfEven (d.coeff / 10 ^ drop)
    if c = 10 ^ prec then ⟨10 ^ (prec - 1), d.exp + drop + 1⟩ else ⟨c, d.exp + drop⟩

/-- The exact sum, over the finer exponent. -/
def exactSum (a b : Decimal) : Decimal :=
  let e := min a.exp b.exp
  ⟨a.coeff * 10 ^ (a.exp - e).toNat + b.coeff * 10 ^ (b.exp - e).toNat, e⟩

/-- Addition in a context of `prec` digits. -/
def add (prec : ℕ) (a b : Decimal) : Decimal := round prec (exactSum a b)

theorem value_rescale (c : ℕ) {e e' : ℤ} (h : e' ≤ e) :
    ((c * 10 ^ (e - e').toNat : ℕ) : ℚ) * (10 : ℚ) ^ e' = c * (10 : ℚ) ^ e := by
  have hk : ((e - e').toNat : ℤ) = e - e' := Int.toNat_of_nonneg (by omega)
  have hp : (10 : ℚ) ^ (e - e').toNat * (10 : ℚ) ^ e' = (10 : ℚ) ^ e := by
    rw [← zpow_natCast, hk, ← zpow_add₀ (by norm_num)]
    congr 1
    omega
  push_cast
  rw [mul_assoc, hp]

theorem value_exactSum (a b : Decimal) : (exactSum a b).value = a.value + b.value := by
  have ha := value_rescale a.coeff (min_le_left a.exp b.exp)
  have hb := value_rescale b.coeff (min_le_right a.exp b.exp)
  simp only [exactSum, value]
  rw [Nat.cast_add, add_mul, ha, hb]

theorem round_eq_self {prec : ℕ} {d : Decimal} (h : d.coeff < 10 ^ prec) : round prec d = d := by
  have hdrop : digitCount d.coeff - prec = 0 := by
    by_cases h0 : d.coeff = 0
    · simp [h0, digitCount]
    · have hle := pow_digitCount_le h0
      have hlt : 10 ^ digitCount d.coeff < 10 ^ (prec + 1) := by
        rw [pow_succ]
        omega
      have := (Nat.pow_lt_pow_iff_right (by norm_num : 1 < 10)).mp hlt
      omega
  simp only [round, hdrop, if_true]

/-- Below the precision, addition does not round. -/
theorem add_of_lt {prec : ℕ} {a b : Decimal} {j m : ℤ} (hj : a.value + b.value < 10 ^ j)
    (ha : -m ≤ a.exp) (hb : -m ≤ b.exp) (hp : j + m ≤ prec) : add prec a b = exactSum a b := by
  have hc : (exactSum a b).coeff < 10 ^ prec := by
    have he : -m ≤ (exactSum a b).exp := le_min ha hb
    have hpos : (0 : ℚ) < (10 : ℚ) ^ (exactSum a b).exp := by positivity
    rw [← value_exactSum] at hj
    have hlt : ((exactSum a b).coeff : ℚ) < (10 : ℚ) ^ (prec : ℤ) := by
      rw [← mul_lt_mul_iff_of_pos_right hpos]
      calc ((exactSum a b).coeff : ℚ) * (10 : ℚ) ^ (exactSum a b).exp
          < (10 : ℚ) ^ j := hj
        _ ≤ (10 : ℚ) ^ ((prec : ℤ) + (exactSum a b).exp) :=
            zpow_le_zpow_right₀ (by norm_num) (by omega)
        _ = _ := zpow_add₀ (by norm_num) _ _
    rw [zpow_natCast] at hlt
    exact_mod_cast hlt
  rw [add, round_eq_self hc]

/-- Below the precision, addition is exact. -/
theorem value_add_of_lt {prec : ℕ} {a b : Decimal} {j m : ℤ} (hj : a.value + b.value < 10 ^ j)
    (ha : -m ≤ a.exp) (hb : -m ≤ b.exp) (hp : j + m ≤ prec) :
    (add prec a b).value = a.value + b.value := by
  rw [add_of_lt hj ha hb hp, value_exactSum]

theorem le_exp_round (prec : ℕ) (d : Decimal) : d.exp ≤ (round prec d).exp := by
  simp only [round]
  split_ifs
  · exact le_rfl
  · show d.exp ≤ d.exp + _ + 1
    omega
  · show d.exp ≤ d.exp + _
    omega

/-- Addition never makes the exponent finer than both operands'. -/
theorem le_exp_add (prec : ℕ) {a b : Decimal} {m : ℤ} (ha : m ≤ a.exp) (hb : m ≤ b.exp) :
    m ≤ (add prec a b).exp :=
  (le_min ha hb).trans (le_exp_round prec (exactSum a b))

/-- Rounding keeps every power of ten the number reaches. -/
theorem pow_le_value_round {prec : ℕ} {d : Decimal} {j : ℤ} (hprec : 0 < prec)
    (h : (10 : ℚ) ^ j ≤ d.value) : (10 : ℚ) ^ j ≤ (round prec d).value := by
  simp only [round]
  split_ifs with hdrop hcarry
  · exact h
  all_goals
    set n := digitCount d.coeff with hn
    have hlt : prec < n := by omega
    have hj : j < n + d.exp := by
      have hub : d.value < (10 : ℚ) ^ ((n : ℤ) + d.exp) := by
        rw [zpow_add₀ (by norm_num), zpow_natCast]
        unfold value
        gcongr
        exact_mod_cast lt_pow_digitCount d.coeff
      exact (zpow_lt_zpow_iff_right₀ (by norm_num)).mp (h.trans_lt hub)
  · have heq : Decimal.value ⟨10 ^ (prec - 1), d.exp + (n - prec : ℕ) + 1⟩ =
        (10 : ℚ) ^ ((n : ℤ) + d.exp) := by
      simp only [value]
      push_cast
      rw [← zpow_natCast, ← zpow_add₀ (by norm_num)]
      congr 1
      omega
    rw [heq]
    exact zpow_le_zpow_right₀ (by norm_num) (by omega)
  · have hd0 : d.coeff ≠ 0 := by
      rintro h0
      simp [hn, h0, digitCount] at hlt
    have hge : 10 ^ (prec - 1) ≤ roundHalfEven (d.coeff / 10 ^ (n - prec)) := by
      apply le_roundHalfEven
      rw [le_div_iff₀ (by positivity)]
      have h1 : 10 ^ n ≤ 10 * d.coeff := pow_digitCount_le hd0
      have h2 : 10 ^ n = 10 * (10 ^ (prec - 1) * 10 ^ (n - prec)) := by
        rw [← pow_add, ← pow_succ']
        congr 1
        omega
      have h3 : 10 ^ (prec - 1) * 10 ^ (n - prec) ≤ d.coeff := by omega
      exact_mod_cast h3
    have heq : (10 : ℚ) ^ (((n : ℤ) - 1) + d.exp) =
        ((10 ^ (prec - 1) : ℕ) : ℚ) * (10 : ℚ) ^ (d.exp + (n - prec : ℕ)) := by
      push_cast
      rw [← zpow_natCast, ← zpow_add₀ (by norm_num)]
      congr 1
      omega
    calc (10 : ℚ) ^ j ≤ (10 : ℚ) ^ (((n : ℤ) - 1) + d.exp) :=
          zpow_le_zpow_right₀ (by norm_num) (by omega)
      _ = ((10 ^ (prec - 1) : ℕ) : ℚ) * (10 : ℚ) ^ (d.exp + (n - prec : ℕ)) := heq
      _ ≤ (roundHalfEven (d.coeff / 10 ^ (n - prec)) : ℚ) *
            (10 : ℚ) ^ (d.exp + (n - prec : ℕ)) := by
          gcongr

/-- A power of ten the exact sum reaches, the context sum reaches too. -/
theorem pow_le_value_add {prec : ℕ} {a b : Decimal} {j : ℤ} (hprec : 0 < prec)
    (h : (10 : ℚ) ^ j ≤ a.value + b.value) : (10 : ℚ) ^ j ≤ (add prec a b).value := by
  rw [← value_exactSum] at h
  exact pow_le_value_round hprec h

/-- No more than `prec` significant digits. -/
def Fits (prec : ℕ) (d : Decimal) : Prop := 10 ^ (digitCount d.coeff - prec) ∣ d.coeff

instance (prec : ℕ) (d : Decimal) : Decidable (d.Fits prec) :=
  inferInstanceAs (Decidable (10 ^ (digitCount d.coeff - prec) ∣ d.coeff))

theorem roundHalfEven_natCast (n : ℕ) : roundHalfEven n = n :=
  roundHalfEven_eq (Nat.cast_nonneg n) (by simp)

/-- The number a rounding leaves, in units of what it dropped. -/
theorem value_round {prec : ℕ} {d : Decimal} (hprec : 0 < prec) (hdrop : digitCount d.coeff - prec ≠ 0) :
    (round prec d).value = (roundHalfEven (d.coeff / 10 ^ (digitCount d.coeff - prec)) : ℚ) *
      (10 : ℚ) ^ (d.exp + (digitCount d.coeff - prec : ℕ)) := by
  simp only [round, if_neg hdrop]
  split_ifs with hcarry
  · rw [hcarry, value, zpow_add₀ (by norm_num : (10 : ℚ) ≠ 0) _ 1, zpow_one]
    have hpow : (10 : ℚ) ^ prec = 10 ^ (prec - 1) * 10 := by
      rw [← pow_succ]
      congr 1
      omega
    push_cast
    rw [hpow]
    ring
  · rfl

/-- **Rounding changes what does not fit**, and nothing else. -/
theorem value_round_eq_iff {prec : ℕ} {d : Decimal} (hprec : 0 < prec) :
    (round prec d).value = d.value ↔ d.Fits prec := by
  by_cases hdrop : digitCount d.coeff - prec = 0
  · have hself : round prec d = d := by simp only [round, hdrop, if_true]
    rw [hself, Fits, hdrop, pow_zero]
    exact iff_of_true rfl (one_dvd _)
  · have hpos : (0 : ℚ) < (10 : ℚ) ^ d.exp := by positivity
    have hvalue : d.value = ((d.coeff : ℚ) / 10 ^ (digitCount d.coeff - prec)) *
        (10 : ℚ) ^ (d.exp + (digitCount d.coeff - prec : ℕ)) := by
      rw [zpow_add₀ (by norm_num), zpow_natCast, value]
      field_simp
    have hunit : (10 : ℚ) ^ (d.exp + (digitCount d.coeff - prec : ℕ)) ≠ 0 := by positivity
    rw [value_round hprec hdrop, hvalue, mul_left_inj' hunit, Fits]
    constructor
    · intro h
      refine ⟨roundHalfEven (d.coeff / 10 ^ (digitCount d.coeff - prec)), ?_⟩
      rw [eq_div_iff (by positivity)] at h
      rw [mul_comm]
      exact_mod_cast h.symm
    · intro h
      obtain ⟨n, hn⟩ := h
      have hq : (d.coeff : ℚ) / 10 ^ (digitCount d.coeff - prec) = n := by
        rw [div_eq_iff (by positivity), mul_comm]
        exact_mod_cast hn
      rw [hq, roundHalfEven_natCast]

/-- Addition is exact when the sum fits, and only then. -/
theorem value_add_eq_iff {prec : ℕ} {a b : Decimal} (hprec : 0 < prec) :
    (add prec a b).value = a.value + b.value ↔ (exactSum a b).Fits prec := by
  rw [add, ← value_exactSum, value_round_eq_iff hprec]

end Decimal
end SwarmAuth
