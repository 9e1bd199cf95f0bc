import SwarmAuth.Lib.Decimal

/-!
# Binary64 numbers and their shortest decimals

A finite magnitude is a significand below `2 ^ 53` times a power of two, in the one
canonical form the format gives each value. `ofRat` reads a rational to the nearest
magnitude; `shortest` is the decimal of fewest significant digits that reads back,
the closest such one, as `repr` in Python and `Number::toString` in JavaScript
choose it. Seventeen digits always suffice.

## Main definitions

* `Binary64`, `Binary64.value` — magnitudes and the rationals they denote.
* `Binary64.ofRat` — round to nearest, ties to even; `none` on overflow.
* `Binary64.shortest` — the shortest decimal that reads back.
* `Double` — signed magnitudes with the infinities and NaN.
-/
namespace SwarmAuth

/-- A finite binary64 magnitude in canonical form. -/
structure Binary64 where
  sig : ℕ
  exp : ℤ
  sig_lt : sig < 2 ^ 53
  exp_ge : -1074 ≤ exp
  exp_le : exp ≤ 971
  canonical : 2 ^ 52 ≤ sig ∨ exp = -1074
  deriving DecidableEq, Repr

namespace Binary64

/-- The rational a magnitude denotes. -/
def value (x : Binary64) : ℚ := x.sig * (2 : ℚ) ^ x.exp

/-- The magnitude with this significand and exponent, where the format has one. -/
def make? (sig : ℕ) (exp : ℤ) : Option Binary64 :=
  if h : sig < 2 ^ 53 ∧ -1074 ≤ exp ∧ exp ≤ 971 ∧ (2 ^ 52 ≤ sig ∨ exp = -1074) then
    some ⟨sig, exp, h.1, h.2.1, h.2.2.1, h.2.2.2⟩
  else none

theorem make?_self (x : Binary64) : make? x.sig x.exp = some x := by
  rw [make?, dif_pos ⟨x.sig_lt, x.exp_ge, x.exp_le, x.canonical⟩]

/-- The least significand of a normal number. -/
theorem least_lt : 2 ^ 52 < 2 ^ 53 := by norm_num

/-! The exponents of numbers from `2` and from `2 ^ 53` on. -/

theorem exp_two_ge : (-1074 : ℤ) ≤ -51 := by norm_num

theorem exp_two_le : (-51 : ℤ) ≤ 971 := by norm_num

theorem exp_pow53_ge : (-1074 : ℤ) ≤ 1 := by norm_num

theorem exp_pow53_le : (1 : ℤ) ≤ 971 := by norm_num

/-- Zero. -/
def zero : Binary64 := ⟨0, -1074, by norm_num, le_rfl, by norm_num, Or.inr rfl⟩

/-- The magnitude nearest to a non-negative rational, ties to even; `none` beyond
the largest one. -/
def ofRat (q : ℚ) : Option Binary64 :=
  if q ≤ 0 then some zero
  else
    let e := max (Int.log 2 q - 52) (-1074)
    let n := roundHalfEven (q / (2 : ℚ) ^ e)
    if n < 2 ^ 53 then make? n e else make? (2 ^ 52) (e + 1)

theorem value_nonneg (x : Binary64) : 0 ≤ x.value := by
  unfold value
  positivity

theorem value_pos {x : Binary64} (h : x.sig ≠ 0) : 0 < x.value := by
  have : 0 < x.sig := Nat.pos_of_ne_zero h
  unfold value
  positivity

theorem eq_zero_of_sig {x : Binary64} (h : x.sig = 0) : x = zero := by
  obtain ⟨sig, exp, _, _, _, hcan⟩ := x
  obtain rfl : sig = 0 := h
  obtain rfl : exp = -1074 := by simpa using hcan
  rfl

theorem value_lt (x : Binary64) : x.value < (2 : ℚ) ^ (1024 : ℤ) := by
  have hsig : (x.sig : ℚ) < (2 : ℚ) ^ (53 : ℤ) := by exact_mod_cast x.sig_lt
  calc x.value < (2 : ℚ) ^ (53 : ℤ) * (2 : ℚ) ^ x.exp := by
        unfold value
        gcongr
    _ = (2 : ℚ) ^ (53 + x.exp) := (zpow_add₀ (by norm_num) _ _).symm
    _ ≤ (2 : ℚ) ^ (1024 : ℤ) := zpow_le_zpow_right₀ (by norm_num) (by have := x.exp_le; omega)

/-! ## Reading the nearest magnitude -/

theorem log_eq {q : ℚ} {k : ℤ} (hlo : (2 : ℚ) ^ k ≤ q) (hhi : q < (2 : ℚ) ^ (k + 1)) :
    Int.log 2 q = k := by
  have hq : 0 < q := lt_of_lt_of_le (by positivity) hlo
  have h1 : k ≤ Int.log 2 q := (Int.zpow_le_iff_le_log (by norm_num) hq).mp (by exact_mod_cast hlo)
  have h2 : Int.log 2 q < k + 1 :=
    (Int.lt_zpow_iff_log_lt (by norm_num) hq).mp (by exact_mod_cast hhi)
  omega

/-- **A rational close to a magnitude reads to it**: within a half unit of its last
place, within a quarter where the spacing below is half as wide. -/
theorem ofRat_near {x : Binary64} {q : ℚ} (hq : 0 < q)
    (hclose : |q / (2 : ℚ) ^ x.exp - x.sig| < 1 / 2)
    (hedge : x.sig = 2 ^ 52 → |q / (2 : ℚ) ^ x.exp - x.sig| < 1 / 4) : ofRat q = some x := by
  set r := q / (2 : ℚ) ^ x.exp with hr
  have hpow : (0 : ℚ) < (2 : ℚ) ^ x.exp := by positivity
  have hqr : q = r * (2 : ℚ) ^ x.exp := by rw [hr, div_mul_cancel₀ _ hpow.ne']
  have hr0 : 0 < r := div_pos hq hpow
  obtain ⟨hlo, hhi⟩ := abs_lt.mp hclose
  have hsig : (x.sig : ℚ) ≤ 2 ^ 53 - 1 := by
    have := x.sig_lt
    have h : x.sig + 1 ≤ 2 ^ 53 := this
    have h' : ((x.sig + 1 : ℕ) : ℚ) ≤ ((2 ^ 53 : ℕ) : ℚ) := by exact_mod_cast h
    push_cast at h'
    linarith
  have hmake : ∀ e : ℤ, e = x.exp → roundHalfEven (q / (2 : ℚ) ^ e) = x.sig →
      (if roundHalfEven (q / (2 : ℚ) ^ e) < 2 ^ 53 then make? (roundHalfEven (q / (2 : ℚ) ^ e)) e
        else make? (2 ^ 52) (e + 1)) = some x := by
    rintro e rfl hn
    rw [hn, if_pos x.sig_lt, make?_self]
  have hround : roundHalfEven (q / (2 : ℚ) ^ x.exp) = x.sig := roundHalfEven_eq hr0.le hclose
  rw [ofRat, if_neg (not_le.mpr hq)]
  rcases le_or_gt ((2 : ℚ) ^ 52) r with hbig | hsmall
  · -- the binade of the magnitude itself
    have hlog : Int.log 2 q = 52 + x.exp := by
      apply log_eq
      · rw [zpow_add₀ (by norm_num), hqr]
        gcongr
        exact_mod_cast hbig
      · rw [show (52 + x.exp + 1 : ℤ) = 53 + x.exp by ring, zpow_add₀ (by norm_num), hqr]
        gcongr
        have : r < 2 ^ 53 := by linarith
        exact_mod_cast this
    exact hmake _ (by rw [hlog]; have := x.exp_ge; omega)
      (by rw [hlog, show max (52 + x.exp - 52) (-1074) = x.exp by have := x.exp_ge; omega]; exact hround)
  · have hupper : q < (2 : ℚ) ^ (52 + x.exp) := by
      rw [zpow_add₀ (by norm_num), hqr]
      gcongr
      exact_mod_cast hsmall
    have hlogle : Int.log 2 q < 52 + x.exp :=
      (Int.lt_zpow_iff_log_lt (by norm_num) hq).mp (by exact_mod_cast hupper)
    rcases eq_or_lt_of_le x.exp_ge with hsub | hnorm
    · -- subnormal spacing
      have he : max (Int.log 2 q - 52) (-1074) = x.exp := by omega
      exact hmake _ he (by rw [he]; exact hround)
    · -- just below the first magnitude of a binade
      have hge : 2 ^ 52 ≤ x.sig := x.canonical.resolve_right (by omega)
      have heq : x.sig = 2 ^ 52 := by
        have h1 : (x.sig : ℚ) < 2 ^ 52 + 1 := by linarith
        have h2 : x.sig < 2 ^ 52 + 1 := by exact_mod_cast h1
        omega
      obtain ⟨hlo', -⟩ := abs_lt.mp (hedge heq)
      have hcast : (x.sig : ℚ) = 2 ^ 52 := by rw [heq]; norm_num
      rw [hcast] at hlo'
      have hlog : Int.log 2 q = 51 + x.exp := by
        apply log_eq
        · rw [zpow_add₀ (by norm_num), hqr]
          gcongr
          have : (2 : ℚ) ^ 51 ≤ r := by norm_num at hlo' ⊢; linarith
          exact_mod_cast this
        · rw [show (51 + x.exp + 1 : ℤ) = 52 + x.exp by ring]
          exact hupper
      have he : max (Int.log 2 q - 52) (-1074) = x.exp - 1 := by omega
      have hdouble : q / (2 : ℚ) ^ (x.exp - 1) = 2 * r := by
        rw [hqr, zpow_sub₀ (by norm_num), zpow_one]
        field_simp
      have hcarry : roundHalfEven (q / (2 : ℚ) ^ (x.exp - 1)) = 2 ^ 53 := by
        rw [hdouble]
        apply roundHalfEven_eq (by linarith)
        rw [abs_lt]
        push_cast
        constructor <;> norm_num at hlo' hsmall ⊢ <;> linarith
      simp only [he, hcarry, lt_self_iff_false, if_false, sub_add_cancel]
      rw [← heq, make?_self]

/-- A magnitude reads back from its own value. -/
theorem ofRat_value (x : Binary64) : ofRat x.value = some x := by
  by_cases h : x.sig = 0
  · rw [eq_zero_of_sig h]
    norm_num [ofRat, value, zero]
  · have hpow : (2 : ℚ) ^ x.exp ≠ 0 := by positivity
    have hr : x.value / (2 : ℚ) ^ x.exp - x.sig = 0 := by
      rw [value, mul_div_assoc, div_self hpow, mul_one, sub_self]
    exact ofRat_near (value_pos h) (by rw [hr]; norm_num) fun _ => by rw [hr]; norm_num

/-- Magnitudes are told apart by their values. -/
theorem value_injective : Function.Injective value := fun x y h => by
  have hx := ofRat_value x
  rw [h, ofRat_value y] at hx
  exact (Option.some.inj hx).symm

/-! ## Shortest decimals -/

/-- The exponent of the last of `k` significant digits of `x`. -/
def lastPlace (x : Binary64) (k : ℕ) : ℤ := Int.log 10 x.value + 1 - k

/-- The decimal of `k` digits just below, or at, the magnitude. -/
def below (x : Binary64) (k : ℕ) : Decimal :=
  ⟨⌊x.value / (10 : ℚ) ^ lastPlace x k⌋₊, lastPlace x k⟩

/-- The decimal of `k` digits just above the magnitude. -/
def above (x : Binary64) (k : ℕ) : Decimal :=
  let n := ⌊x.value / (10 : ℚ) ^ lastPlace x k⌋₊ + 1
  if n = 10 ^ k then ⟨1, lastPlace x k + k⟩ else ⟨n, lastPlace x k⟩

/-- The closest decimal of `k` digits, ties to even, if any of `k` digits reads back. -/
def candidate (x : Binary64) (k : ℕ) : Option Decimal :=
  let q := x.value / (10 : ℚ) ^ lastPlace x k
  let lo := ofRat (below x k).value = some x
  let hi := ofRat (above x k).value = some x
  if lo ∧ (roundHalfEven q = ⌊q⌋₊ ∨ ¬ hi) then some (below x k)
  else if hi then some (above x k)
  else none

/-- The decimal of fewest digits that reads back to the magnitude. -/
def shortest (x : Binary64) : Decimal :=
  if x.sig = 0 then ⟨0, 0⟩
  else ((List.range 17).findSome? fun i => candidate x (i + 1)).getD ⟨0, 0⟩

theorem value_below (x : Binary64) (k : ℕ) :
    (below x k).value =
      (⌊x.value / (10 : ℚ) ^ lastPlace x k⌋₊ : ℚ) * (10 : ℚ) ^ lastPlace x k := rfl

theorem value_above (x : Binary64) (k : ℕ) :
    (above x k).value =
      (⌊x.value / (10 : ℚ) ^ lastPlace x k⌋₊ + 1 : ℚ) * (10 : ℚ) ^ lastPlace x k := by
  simp only [above]
  split_ifs with h
  · have hcast : (⌊x.value / (10 : ℚ) ^ lastPlace x k⌋₊ : ℚ) + 1 = (10 : ℚ) ^ (k : ℤ) := by
      rw [zpow_natCast]
      exact_mod_cast h
    rw [hcast, ← zpow_add₀ (by norm_num), add_comm]
    simp [Decimal.value]
  · simp [Decimal.value]

/-- A decimal within half a unit of the seventeenth digit reads back. -/
theorem ofRat_of_close {x : Binary64} (h : x.sig ≠ 0) {q : ℚ} (hq : 0 < q)
    (hclose : |q - x.value| ≤ (10 : ℚ) ^ lastPlace x 17 / 2) : ofRat q = some x := by
  have hv := value_pos h
  have hpow : (0 : ℚ) < (2 : ℚ) ^ x.exp := by positivity
  have hdigit : (10 : ℚ) ^ lastPlace x 17 * 10 ^ 16 ≤ x.value := by
    have hlog := Int.zpow_log_le_self (b := 10) (by norm_num) hv
    have hsplit : (10 : ℚ) ^ lastPlace x 17 * 10 ^ 16 = (10 : ℚ) ^ Int.log 10 x.value := by
      rw [lastPlace, ← zpow_natCast, ← zpow_add₀ (by norm_num)]
      congr 1
      push_cast
      ring
    rw [hsplit]
    exact_mod_cast hlog
  have hunit : (10 : ℚ) ^ lastPlace x 17 / (2 : ℚ) ^ x.exp ≤ x.sig / 10 ^ 16 := by
    rw [div_le_div_iff₀ hpow (by norm_num)]
    exact hdigit
  have hdist : |q / (2 : ℚ) ^ x.exp - x.sig| ≤ x.sig / 10 ^ 16 / 2 := by
    have hsig : (x.sig : ℚ) = x.value / (2 : ℚ) ^ x.exp := by
      rw [value, mul_div_assoc, div_self hpow.ne', mul_one]
    calc |q / (2 : ℚ) ^ x.exp - x.sig| = |q - x.value| / (2 : ℚ) ^ x.exp := by
          rw [hsig, ← sub_div, abs_div, abs_of_pos hpow]
      _ ≤ (10 : ℚ) ^ lastPlace x 17 / 2 / (2 : ℚ) ^ x.exp := by gcongr
      _ = (10 : ℚ) ^ lastPlace x 17 / (2 : ℚ) ^ x.exp / 2 := by ring
      _ ≤ x.sig / 10 ^ 16 / 2 := by gcongr
  have hlt : (x.sig : ℚ) < 9007199254740992 := by exact_mod_cast x.sig_lt
  apply ofRat_near hq
  · refine hdist.trans_lt ?_
    rw [div_div, div_lt_div_iff₀ (by norm_num) (by norm_num)]
    linarith
  · intro hmin
    refine hdist.trans_lt ?_
    have : (x.sig : ℚ) = 2 ^ 52 := by exact_mod_cast hmin
    norm_num [this]

theorem abs_sub_roundHalfEven {q : ℚ} (hq : 0 ≤ q) :
    if roundHalfEven q = ⌊q⌋₊ then |(⌊q⌋₊ : ℚ) - q| ≤ 1 / 2
    else |(⌊q⌋₊ : ℚ) + 1 - q| ≤ 1 / 2 := by
  have hfloor := Nat.floor_le hq
  have hceil := Nat.lt_floor_add_one q
  simp only [roundHalfEven]
  split_ifs with h1 h2 h3 h4 h5 h6 <;> first | omega | (rw [abs_le]; constructor <;> linarith)

/-- Seventeen digits suffice. -/
theorem candidate_ne_none {x : Binary64} (h : x.sig ≠ 0) : candidate x 17 ≠ none := by
  have hv := value_pos h
  have hpos : (0 : ℚ) < (10 : ℚ) ^ lastPlace x 17 := by positivity
  set q := x.value / (10 : ℚ) ^ lastPlace x 17 with hq
  have hxq : x.value = q * (10 : ℚ) ^ lastPlace x 17 := by rw [hq, div_mul_cancel₀ _ hpos.ne']
  have hscale : ∀ n : ℚ, |n - q| ≤ 1 / 2 →
      |n * (10 : ℚ) ^ lastPlace x 17 - x.value| ≤ (10 : ℚ) ^ lastPlace x 17 / 2 := by
    intro n hn
    rw [hxq, ← sub_mul, abs_mul, abs_of_pos hpos]
    calc |n - q| * (10 : ℚ) ^ lastPlace x 17 ≤ 1 / 2 * (10 : ℚ) ^ lastPlace x 17 := by gcongr
      _ = _ := by ring
  have hq1 : 1 ≤ q := by
    rw [hq, le_div_iff₀ hpos, one_mul]
    have hlog := Int.zpow_log_le_self (b := 10) (by norm_num) hv
    have hmono : (10 : ℚ) ^ lastPlace x 17 ≤ (10 : ℚ) ^ Int.log 10 x.value :=
      zpow_le_zpow_right₀ (by norm_num) (by simp only [lastPlace]; push_cast; omega)
    exact hmono.trans (by exact_mod_cast hlog)
  have hnear := abs_sub_roundHalfEven (zero_le_one.trans hq1)
  by_cases hr : roundHalfEven q = ⌊q⌋₊
  · rw [if_pos hr] at hnear
    have hfloor : 1 ≤ ⌊q⌋₊ := Nat.le_floor (by exact_mod_cast hq1)
    have hread : ofRat (below x 17).value = some x := by
      rw [value_below]
      refine ofRat_of_close h ?_ (hscale _ hnear)
      have : (0 : ℚ) < ⌊q⌋₊ := by exact_mod_cast hfloor
      positivity
    simp [candidate, hread, ← hq, hr]
  · rw [if_neg hr] at hnear
    have hread : ofRat (above x 17).value = some x := by
      rw [value_above]
      exact ofRat_of_close h (by positivity) (hscale _ hnear)
    simp [candidate, hread, ← hq, hr]

theorem candidate_reads {x : Binary64} {k : ℕ} {d : Decimal} (h : candidate x k = some d) :
    ofRat d.value = some x ∧ (d = below x k ∨ d = above x k) := by
  simp only [candidate] at h
  split_ifs at h with hlo hhi
  · obtain rfl := Option.some.inj h
    exact ⟨hlo.1, Or.inl rfl⟩
  · obtain rfl := Option.some.inj h
    exact ⟨hhi, Or.inr rfl⟩

/-- The shortest decimal is a candidate of some length up to seventeen. -/
theorem shortest_candidate {x : Binary64} (h : x.sig ≠ 0) :
    ∃ k ≤ 17, 1 ≤ k ∧ candidate x k = some (shortest x) := by
  rw [shortest, if_neg h]
  cases hfind : (List.range 17).findSome? fun i => candidate x (i + 1) with
  | none =>
      rw [List.findSome?_eq_none_iff] at hfind
      exact absurd (hfind 16 (by simp)) (candidate_ne_none h)
  | some d =>
      obtain ⟨i, hi, hd⟩ := List.exists_of_findSome?_eq_some hfind
      exact ⟨i + 1, by simp at hi; omega, by omega, hd⟩

/-- **The shortest decimal reads back to the magnitude.** -/
theorem ofRat_shortest (x : Binary64) : ofRat (shortest x).value = some x := by
  by_cases h : x.sig = 0
  · rw [eq_zero_of_sig h]
    norm_num [ofRat, shortest, zero, Decimal.value]
  · obtain ⟨k, -, -, hk⟩ := shortest_candidate h
    exact (candidate_reads hk).1

theorem ofRat_zero : ofRat 0 = some zero := by simp [ofRat]

/-- Only zero is written with a zero coefficient, and then plainly. -/
theorem shortest_eq_zero {x : Binary64} (h : (shortest x).coeff = 0) : shortest x = ⟨0, 0⟩ := by
  have hread := ofRat_shortest x
  rw [Decimal.value, h, Nat.cast_zero, zero_mul, ofRat_zero] at hread
  rw [← Option.some.inj hread]
  rfl

theorem two_zpow_lt : (2 : ℚ) ^ (1024 : ℤ) < (10 : ℚ) ^ (312 : ℤ) :=
  calc (2 : ℚ) ^ (1024 : ℤ) = ((2 : ℚ) ^ 128) ^ 8 := by rw [← pow_mul]; rfl
    _ < ((10 : ℚ) ^ 39) ^ 8 := pow_lt_pow_left₀ (by norm_num) (by positivity) (by norm_num)
    _ = (10 : ℚ) ^ (312 : ℤ) := by rw [← pow_mul]; rfl

theorem ten_zpow_le : (10 : ℚ) ^ (-324 : ℤ) ≤ (2 : ℚ) ^ (-1074 : ℤ) := by
  have h : (2 : ℚ) ^ 1074 ≤ (10 : ℚ) ^ 324 :=
    calc (2 : ℚ) ^ 1074 = ((2 : ℚ) ^ 179) ^ 6 := by rw [← pow_mul]
      _ ≤ ((10 : ℚ) ^ 54) ^ 6 := pow_le_pow_left₀ (by positivity) (by norm_num) 6
      _ = (10 : ℚ) ^ 324 := by rw [← pow_mul]
  rw [zpow_neg, zpow_neg]
  exact inv_anti₀ (by positivity) (by exact_mod_cast h)

theorem le_log_value {x : Binary64} (h : x.sig ≠ 0) : -324 ≤ Int.log 10 x.value := by
  rw [← Int.zpow_le_iff_le_log (by norm_num) (value_pos h)]
  have hsig : (1 : ℚ) ≤ x.sig := by exact_mod_cast Nat.one_le_iff_ne_zero.mpr h
  have hexp : (2 : ℚ) ^ (-1074 : ℤ) ≤ (2 : ℚ) ^ x.exp :=
    zpow_le_zpow_right₀ (by norm_num) x.exp_ge
  have hpos : (0 : ℚ) < (2 : ℚ) ^ x.exp := by positivity
  calc (((10 : ℕ) : ℚ)) ^ (-324 : ℤ) ≤ (2 : ℚ) ^ x.exp := ten_zpow_le.trans hexp
    _ ≤ x.sig * (2 : ℚ) ^ x.exp := le_mul_of_one_le_left hpos.le hsig

theorem log_value_lt {x : Binary64} (h : x.sig ≠ 0) {j : ℤ} (hj : x.value < (10 : ℚ) ^ j) :
    Int.log 10 x.value < j := by
  rw [← Int.lt_zpow_iff_log_lt (by norm_num) (value_pos h)]
  exact hj

/-- Shortest decimals are no finer than `10 ^ -340`. -/
theorem le_exp_shortest (x : Binary64) : -340 ≤ (shortest x).exp := by
  by_cases h : x.sig = 0
  · simp [shortest, h]
  · obtain ⟨k, hk, -, hc⟩ := shortest_candidate h
    have hlog := le_log_value h
    have hplace : -340 ≤ lastPlace x k := by simp only [lastPlace]; omega
    rcases (candidate_reads hc).2 with hd | hd <;> rw [hd]
    · exact hplace
    · simp only [above]
      split_ifs <;> simp only <;> omega

theorem value_shortest_lt_of {x : Binary64} {j : ℤ} (h : x.sig ≠ 0)
    (hx : x.value < (10 : ℚ) ^ j) : (shortest x).value < (10 : ℚ) ^ (j + 1) := by
  obtain ⟨k, -, hk, hc⟩ := shortest_candidate h
  have hpos : (0 : ℚ) < (10 : ℚ) ^ lastPlace x k := by positivity
  have hle : (⌊x.value / (10 : ℚ) ^ lastPlace x k⌋₊ : ℚ) * (10 : ℚ) ^ lastPlace x k ≤ x.value := by
    rw [← le_div_iff₀ hpos]
    exact Nat.floor_le (div_nonneg (value_pos h).le hpos.le)
  have hunit : (10 : ℚ) ^ lastPlace x k ≤ (10 : ℚ) ^ j := by
    have := log_value_lt h hx
    exact zpow_le_zpow_right₀ (by norm_num) (by simp only [lastPlace]; omega)
  rw [zpow_add_one₀ (by norm_num)]
  rcases (candidate_reads hc).2 with hd | hd <;> rw [hd]
  · rw [value_below]
    linarith
  · rw [value_above, add_mul, one_mul]
    linarith

/-- Shortest decimals stay below `10 ^ 313`. -/
theorem value_shortest_lt (x : Binary64) : (shortest x).value < (10 : ℚ) ^ (313 : ℤ) := by
  by_cases h : x.sig = 0
  · rw [shortest, if_pos h, Decimal.value, Nat.cast_zero, zero_mul]
    positivity
  · exact value_shortest_lt_of (j := 312) h (x.value_lt.trans two_zpow_lt)

end Binary64

/-- A binary64 number: signed magnitudes, the infinities and NaN. -/
inductive Double where
  | finite (neg : Bool) (mag : Binary64)
  | inf (neg : Bool)
  | nan
  deriving DecidableEq, Repr

namespace Double

/-- The rational a finite number denotes. -/
def value? : Double → Option ℚ
  | finite neg mag => some (if neg then -mag.value else mag.value)
  | _ => none

/-- What comparisons see: a rational or an infinity, nothing for NaN. -/
def denote : Double → Option (ℚ ⊕ Bool)
  | finite neg mag => some (.inl (if neg then -mag.value else mag.value))
  | inf neg => some (.inr neg)
  | nan => none

/-- The nearest number of the given sign and magnitude, infinite on overflow. -/
def nearest (neg : Bool) (q : ℚ) : Double :=
  match Binary64.ofRat q with
  | some mag => finite neg mag
  | none => inf neg

/-- The number nearest to an integer. -/
def ofInt (n : ℤ) : Double := nearest (n < 0) n.natAbs

@[simp] theorem nearest_shortest (neg : Bool) (x : Binary64) :
    nearest neg x.shortest.value = finite neg x := by
  rw [nearest, x.ofRat_shortest]

end Double
end SwarmAuth
