import SwarmAuth.Lib.Integers

/-!
# Rounding to binary64

Rounding respects the order: what lies below a magnitude reads to nothing above it, and
what lies above reads to nothing below. From `2 ^ 53` on every magnitude is an integer, so
that power separates the integers that are told apart from those that may not be.

## Main definitions

* `Binary64.ofRat_le`, `Binary64.le_ofRat` — the order is kept.
* `Binary64.exists_ofRat` — nothing below `2 ^ 1023` overflows.
* `Binary64.value_of_lt` — below `2 ^ 53` integers are told apart.
* `Binary64.le_shortest_iff` — shortest decimals keep to the same side of a decimal bound.
-/
namespace SwarmAuth
namespace Binary64
variable {q : ℚ} {b x : Binary64}

/-- In units of a narrower magnitude, a magnitude is a whole number. -/
theorem value_div_unit {e : ℤ} (h : e ≤ b.exp) : ∃ n : ℕ, b.value / (2 : ℚ) ^ e = n := by
  refine ⟨b.sig * 2 ^ (b.exp - e).toNat, ?_⟩
  have hpow : (0 : ℚ) < (2 : ℚ) ^ e := by positivity
  have hsplit : (2 : ℚ) ^ b.exp = (2 : ℚ) ^ (b.exp - e).toNat * (2 : ℚ) ^ e := by
    rw [← zpow_natCast, ← zpow_add₀ (by norm_num), Int.toNat_of_nonneg (by omega)]
    congr 1
    omega
  rw [value, hsplit]
  push_cast
  field_simp

/-- A magnitude of narrower units lies half a unit below the binade of `x`. -/
theorem value_lt_binade (h : b.exp < x.exp) :
    b.value / (2 : ℚ) ^ x.exp ≤ 2 ^ 52 - 1 / 2 ∧ (2 : ℚ) ^ 52 ≤ x.sig := by
  have hpow : (0 : ℚ) < (2 : ℚ) ^ x.exp := by positivity
  have hcan : 2 ^ 52 ≤ x.sig := x.canonical.resolve_right (by have := b.exp_ge; omega)
  refine ⟨?_, by exact_mod_cast hcan⟩
  have hsig : (b.sig : ℚ) ≤ 2 ^ 53 - 1 := by
    have hlt : b.sig + 1 ≤ 2 ^ 53 := b.sig_lt
    have hcast : ((b.sig + 1 : ℕ) : ℚ) ≤ ((2 ^ 53 : ℕ) : ℚ) := by exact_mod_cast hlt
    push_cast at hcast
    linarith
  have hunit : (2 : ℚ) ^ b.exp ≤ (2 : ℚ) ^ x.exp / 2 := by
    have hle : (2 : ℚ) ^ b.exp ≤ (2 : ℚ) ^ (x.exp - 1) := zpow_le_zpow_right₀ (by norm_num) (by omega)
    rwa [zpow_sub_one₀ (by norm_num), ← div_eq_mul_inv] at hle
  rw [div_le_iff₀ hpow]
  calc b.value ≤ (2 ^ 53 - 1) * ((2 : ℚ) ^ x.exp / 2) := by
        unfold value
        gcongr
    _ = (2 ^ 52 - 1 / 2) * (2 : ℚ) ^ x.exp := by ring

/-- **What lies below a magnitude reads to nothing above it.** -/
theorem ofRat_le (hq : q ≤ b.value) (h : ofRat q = some x) : x.value ≤ b.value := by
  by_cases h0 : q ≤ 0
  · rw [ofRat, if_pos h0] at h
    rw [← Option.some.inj h]
    simpa [value, zero] using b.value_nonneg
  have hpos : 0 < q := not_le.mp h0
  have hpow : (0 : ℚ) < (2 : ℚ) ^ x.exp := by positivity
  obtain ⟨-, hdist⟩ := abs_le.mp (ofRat_dist hpos h)
  have hqb : q / (2 : ℚ) ^ x.exp ≤ b.value / (2 : ℚ) ^ x.exp := by gcongr
  by_contra hlt
  rw [not_le, ← div_lt_div_iff_of_pos_right hpow] at hlt
  have hx : x.value / (2 : ℚ) ^ x.exp = x.sig := by
    rw [value, mul_div_assoc, div_self hpow.ne', mul_one]
  rw [hx] at hlt
  rcases le_or_gt x.exp b.exp with hexp | hexp
  · obtain ⟨n, hn⟩ := value_div_unit hexp
    rw [hn] at hlt hqb
    have hstep : (n : ℚ) + 1 ≤ x.sig := by exact_mod_cast Nat.succ_le_of_lt (by exact_mod_cast hlt)
    linarith
  · obtain ⟨hbelow, hsig⟩ := value_lt_binade hexp
    -- only the magnitude itself is that close, and it reads to itself
    have heq : q / (2 : ℚ) ^ x.exp = b.value / (2 : ℚ) ^ x.exp := le_antisymm hqb (by linarith)
    have hqb' : q = b.value := by
      rw [div_left_inj' hpow.ne'] at heq
      exact heq
    rw [hqb', ofRat_value, Option.some.injEq] at h
    rw [h, hx] at hlt
    exact lt_irrefl _ hlt

/-- **What lies above a magnitude reads to nothing below it.** -/
theorem le_ofRat (hq : b.value ≤ q) (h : ofRat q = some x) : b.value ≤ x.value := by
  by_cases h0 : q ≤ 0
  · exact (hq.trans h0).trans x.value_nonneg
  have hpos : 0 < q := not_le.mp h0
  have hpow : (0 : ℚ) < (2 : ℚ) ^ x.exp := by positivity
  obtain ⟨hdist, -⟩ := abs_le.mp (ofRat_dist hpos h)
  have hqb : b.value / (2 : ℚ) ^ x.exp ≤ q / (2 : ℚ) ^ x.exp := by gcongr
  by_contra hlt
  rw [not_le, ← div_lt_div_iff_of_pos_right hpow] at hlt
  have hx : x.value / (2 : ℚ) ^ x.exp = x.sig := by
    rw [value, mul_div_assoc, div_self hpow.ne', mul_one]
  rw [hx] at hlt
  rcases le_or_gt x.exp b.exp with hexp | hexp
  · obtain ⟨n, hn⟩ := value_div_unit hexp
    rw [hn] at hlt hqb
    have hstep : (x.sig : ℚ) + 1 ≤ n := by exact_mod_cast Nat.succ_le_of_lt (by exact_mod_cast hlt)
    linarith
  · obtain ⟨hbelow, hsig⟩ := value_lt_binade hexp
    linarith

/-- **Nothing below `2 ^ 1023` overflows.** -/
theorem exists_ofRat (h : q < (2 : ℚ) ^ (1023 : ℤ)) : ∃ x, ofRat q = some x := by
  by_cases h0 : q ≤ 0
  · exact ⟨zero, if_pos h0⟩
  have hpos : 0 < q := not_le.mp h0
  have hlog : Int.log 2 q < 1023 := (Int.lt_zpow_iff_log_lt (by norm_num) hpos).mp (by exact_mod_cast h)
  rw [ofRat, if_neg h0]
  simp only
  set e := max (Int.log 2 q - 52) (-1074) with he
  have hpow : (0 : ℚ) < (2 : ℚ) ^ e := by positivity
  have hhigh : q / (2 : ℚ) ^ e < ((2 ^ 53 : ℕ) : ℚ) := by
    have hlt : q < ((2 : ℕ) : ℚ) ^ (e + 53) :=
      (Int.lt_zpow_iff_log_lt (by norm_num) hpos).mpr (by omega)
    have hsplit : (2 : ℚ) ^ (e + 53) = ((2 ^ 53 : ℕ) : ℚ) * (2 : ℚ) ^ e := by
      rw [zpow_add₀ (by norm_num), mul_comm]
      norm_num
    rw [div_lt_iff₀ hpow, ← hsplit]
    exact_mod_cast hlt
  have hcan : 2 ^ 52 ≤ roundHalfEven (q / (2 : ℚ) ^ e) ∨ e = -1074 := by
    rcases le_or_gt (Int.log 2 q - 52) (-1074) with hsmall | hbig
    · exact Or.inr (by omega)
    · left
      apply le_roundHalfEven
      have hle : ((2 : ℕ) : ℚ) ^ Int.log 2 q ≤ q := Int.zpow_log_le_self (by norm_num) hpos
      have heq : Int.log 2 q = 52 + e := by omega
      rw [heq, zpow_add₀ (by norm_num)] at hle
      rw [le_div_iff₀ hpow]
      exact_mod_cast hle
  split_ifs with hn
  · exact ⟨⟨_, e, hn, by omega, by omega, hcan⟩, dif_pos ⟨hn, by omega, by omega, hcan⟩⟩
  · exact ⟨⟨2 ^ 52, e + 1, by norm_num, by omega, by omega, Or.inl le_rfl⟩,
      dif_pos ⟨by norm_num, by omega, by omega, Or.inl le_rfl⟩⟩

/-! ## The power that separates -/

/-- `2 ^ 53`. -/
def pow53 : Binary64 := ⟨2 ^ 52, 1, least_lt, exp_pow53_ge, exp_pow53_le, Or.inl le_rfl⟩

theorem value_pow53 : pow53.value = 2 ^ 53 := by
  simp only [value, pow53]
  norm_num

/-- From `2 ^ 53` on every magnitude is an integer. -/
theorem den_of_le (h : 2 ^ 53 ≤ x.value) : x.value.den = 1 := by
  have hexp : 0 ≤ x.exp := by
    by_contra hneg
    have hsig : (x.sig : ℚ) < 2 ^ 53 := by exact_mod_cast x.sig_lt
    have hunit : (2 : ℚ) ^ x.exp ≤ 1 := zpow_le_one_of_nonpos₀ (by norm_num) (by omega)
    have hlt : x.value < 2 ^ 53 := by
      calc x.value ≤ x.sig * 1 := by
            unfold value
            gcongr
        _ < 2 ^ 53 := by rwa [mul_one]
    linarith
  obtain ⟨n, hn⟩ := value_div_unit (b := x) hexp
  rw [zpow_zero, div_one] at hn
  rw [hn, Rat.den_natCast]

/-- An integer reads below `2 ^ 53` only when it lies there, and then to itself. -/
theorem value_of_lt {n : ℕ} (h : ofRat n = some x) (hx : x.value < 2 ^ 53) : x.value = n := by
  have hn : n < 2 ^ 53 := by
    by_contra hge
    have hle : pow53.value ≤ (n : ℚ) := by
      rw [value_pow53]
      exact_mod_cast not_lt.mp hge
    have hbig := le_ofRat hle h
    rw [value_pow53] at hbig
    linarith
  rw [ofRat_natCast n hn, Option.some.injEq] at h
  rw [← h, value_ofNat]

/-! ## Shortest decimals -/

/-- **A bound that is its own shortest decimal** is one for magnitudes as for their decimals. -/
theorem le_shortest_iff (hb : (shortest b).value = b.value) :
    b.value ≤ (shortest x).value ↔ b.value ≤ x.value := by
  constructor
  · intro h
    exact le_ofRat h (ofRat_shortest x)
  · intro h
    by_contra hlt
    rw [not_le] at hlt
    have hle := ofRat_le hlt.le (ofRat_shortest x)
    obtain rfl := value_injective (le_antisymm h hle)
    exact hlt.ne hb

/-- What an integer reads to is an integer. -/
theorem den_of_ofRat {n : ℕ} (h : ofRat n = some x) : x.value.den = 1 := by
  rcases lt_or_ge x.value (2 ^ 53) with hlt | hge
  · rw [value_of_lt h hlt, Rat.den_natCast]
  · exact den_of_le hge

/-- Between `2 ^ 53` and `2 ^ 54` magnitudes are the even integers. -/
theorem exp_eq_one (hlow : 2 ^ 53 ≤ x.value) (hhigh : x.value < 2 ^ 54) : x.exp = 1 := by
  have hsig : (x.sig : ℚ) < 2 ^ 53 := by exact_mod_cast x.sig_lt
  have hge : 1 ≤ x.exp := by
    by_contra hneg
    have hunit : (2 : ℚ) ^ x.exp ≤ 1 := zpow_le_one_of_nonpos₀ (by norm_num) (by omega)
    have hlt : x.value < 2 ^ 53 := by
      calc x.value ≤ x.sig * 1 := by
            unfold value
            gcongr
        _ < 2 ^ 53 := by rwa [mul_one]
    linarith
  have hle : x.exp ≤ 1 := by
    by_contra hbig
    have hcan : 2 ^ 52 ≤ x.sig := x.canonical.resolve_right (by omega)
    have hcan' : (2 : ℚ) ^ 52 ≤ x.sig := by exact_mod_cast hcan
    have hunit : (2 : ℚ) ^ (2 : ℤ) ≤ (2 : ℚ) ^ x.exp := zpow_le_zpow_right₀ (by norm_num) (by omega)
    have hval : (2 : ℚ) ^ 52 * (2 : ℚ) ^ (2 : ℤ) ≤ x.value := by
      unfold value
      gcongr
    norm_num at hval hhigh
    linarith
  omega

/-- **Up to sixteen digits** the shortest decimal of an integer is the integer. -/
theorem shortest_sixteen {n : ℕ} (hx : x.value = n) (hn : n < 10 ^ 16) :
    ∃ c e : ℕ, shortest x = ⟨c, e⟩ ∧ c * 10 ^ e = n ∧ (c = 0 → e = 0) := by
  by_cases hsmall : n < 2 ^ 53
  · exact shortest_natCast hx hsmall
  have hlow : (2 : ℚ) ^ 53 ≤ x.value := by
    rw [hx]
    exact_mod_cast not_lt.mp hsmall
  have hexp : x.exp = 1 := by
    apply exp_eq_one hlow
    rw [hx]
    have hlt : n < 2 ^ 54 := hn.trans (by norm_num)
    exact_mod_cast hlt
  have heven : n = x.sig * 2 := by
    rw [value, hexp, zpow_one] at hx
    exact_mod_cast hx.symm
  refine shortest_whole hx (hn.trans (by norm_num)) fun m hten hm => ?_
  have hpos : (0 : ℚ) < m := by
    refine lt_of_not_ge fun hle => ?_
    rw [ofRat, if_pos hle] at hm
    rw [← Option.some.inj hm] at hlow
    norm_num [value, zero] at hlow
  have hdist := ofRat_dist hpos hm
  rw [hexp, zpow_one] at hdist
  have hclose : |((x.sig * 2 : ℤ) : ℚ) - (m : ℤ)| ≤ 1 := by
    rw [abs_le] at hdist ⊢
    push_cast
    constructor <;> linarith [hdist.1, hdist.2]
  have hint : |(x.sig * 2 : ℤ) - m| ≤ 1 := by exact_mod_cast hclose
  rw [abs_le] at hint
  omega

end Binary64
end SwarmAuth
