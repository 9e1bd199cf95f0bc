import SwarmAuth.Lib.Rounding

/-!
# Arithmetic in binary64

A sum, difference or product is the number nearest to the exact one. Nothing is rounded past
a number, and integers up to `2 ^ 53` are exact; so comparisons of a rounded result with a
number are those of the exact one, but for the integer next to `2 ^ 53` on its far side. A
rounded difference ends too early by less than the distance to the number before.

## Main definitions

* `nearestTo`, `rounded` — the number nearest to a rational, and its value.
* `millisLeft` — a difference of times in whole milliseconds.
* `nearestTo_le`, `le_nearestTo` — nothing is rounded past a number.
* `nearestTo_intCast` — integers up to `2 ^ 53` are exact.
* `nearestTo_lt_iff`, `lt_nearestTo_iff` — comparisons with integers close to that.
* `Binary64.lt_add_difference`, `Binary64.lt_add_millis` — a rounded time to live.
-/
namespace SwarmAuth

/-- The number nearest to a rational. -/
def nearestTo (q : ℚ) : Double := .nearest (q < 0) |q|

/-- The value of the nearest number; none past the largest. -/
def rounded (q : ℚ) : Option ℚ := (nearestTo q).value?

/-- The milliseconds from `now` to a later time, rounded up. None past the largest number. -/
def millisLeft (later now : ℚ) : Option ℤ := do
  let left ← rounded (later - now)
  let millis ← rounded (left * 1000)
  return ⌈millis⌉

/-- Magnitudes below `2 ^ 1023` have a nearest number. -/
theorem value_nearestTo {q : ℚ} (hq : |q| < (2 : ℚ) ^ (1023 : ℤ)) :
    ∃ x, Binary64.ofRat |q| = some x ∧
      (nearestTo q).value? = some (if q < 0 then -x.value else x.value) := by
  obtain ⟨x, hx⟩ := Binary64.exists_ofRat hq
  refine ⟨x, hx, ?_⟩
  rw [nearestTo, Double.nearest, hx]
  simp [Double.value?]

/-- **Nothing below a number is rounded above it.** -/
theorem nearestTo_le {q v : ℚ} {d : Double} (hd : d.value? = some v)
    (hq : |q| < (2 : ℚ) ^ (1023 : ℤ)) (h : q ≤ v) :
    ∃ y, (nearestTo q).value? = some y ∧ y ≤ v := by
  obtain ⟨x, hx, hvalue⟩ := value_nearestTo hq
  refine ⟨_, hvalue, ?_⟩
  cases d with
  | inf neg => exact nomatch hd
  | nan => exact nomatch hd
  | finite neg mag =>
      have hv : (if neg then -mag.value else mag.value) = v := Option.some.inj hd
      have hmag := mag.value_nonneg
      have hx0 := x.value_nonneg
      by_cases hneg : q < 0
      · rw [if_pos hneg]
        by_cases hn : neg = true
        · rw [if_pos hn] at hv
          have hle : mag.value ≤ |q| := by
            rw [abs_of_neg hneg]
            linarith
          have := Binary64.le_ofRat hle hx
          linarith
        · rw [if_neg hn] at hv
          linarith
      · rw [if_neg hneg]
        rw [abs_of_nonneg (not_lt.mp hneg)] at hx
        by_cases hn : neg = true
        · rw [if_pos hn] at hv
          have hle : q ≤ mag.value := by linarith
          have := Binary64.ofRat_le hle hx
          linarith
        · rw [if_neg hn] at hv
          have := Binary64.ofRat_le (hv ▸ h) hx
          linarith

/-- **Nothing above a number is rounded below it.** -/
theorem le_nearestTo {q v : ℚ} {d : Double} (hd : d.value? = some v)
    (hq : |q| < (2 : ℚ) ^ (1023 : ℤ)) (h : v ≤ q) :
    ∃ y, (nearestTo q).value? = some y ∧ v ≤ y := by
  obtain ⟨x, hx, hvalue⟩ := value_nearestTo hq
  refine ⟨_, hvalue, ?_⟩
  cases d with
  | inf neg => exact nomatch hd
  | nan => exact nomatch hd
  | finite neg mag =>
      have hv : (if neg then -mag.value else mag.value) = v := Option.some.inj hd
      have hmag := mag.value_nonneg
      have hx0 := x.value_nonneg
      by_cases hneg : q < 0
      · rw [if_pos hneg]
        by_cases hn : neg = true
        · rw [if_pos hn] at hv
          have hle : |q| ≤ mag.value := by
            rw [abs_of_neg hneg]
            linarith
          have := Binary64.ofRat_le hle hx
          linarith
        · rw [if_neg hn] at hv
          linarith
      · rw [if_neg hneg]
        rw [abs_of_nonneg (not_lt.mp hneg)] at hx
        by_cases hn : neg = true
        · rw [if_pos hn] at hv
          linarith
        · rw [if_neg hn] at hv
          have := Binary64.le_ofRat (hv ▸ h) hx
          linarith

/-! ## Integers -/

/-- **Integers up to `2 ^ 53` are exact.** -/
theorem nearestTo_intCast {n : ℤ} (hn : |n| ≤ 2 ^ 53) : (nearestTo n).value? = some (n : ℚ) := by
  obtain ⟨k, hk⟩ : ∃ k : ℕ, |n| = k := ⟨n.natAbs, n.abs_eq_natAbs⟩
  have hread : ∃ x, Binary64.ofRat |(n : ℚ)| = some x ∧ x.value = |(n : ℚ)| := by
    have habs : |(n : ℚ)| = (k : ℚ) := by
      rw [← Int.cast_abs, hk, Int.cast_natCast]
    rw [habs]
    by_cases hlt : k < 2 ^ 53
    · exact ⟨_, Binary64.ofRat_natCast k hlt, Binary64.value_ofNat k hlt⟩
    · have hkeq : (k : ℚ) = Binary64.pow53.value := by
        rw [Binary64.value_pow53]
        have hk' : k = 2 ^ 53 := by omega
        rw [hk']
        norm_num
      exact ⟨Binary64.pow53, by rw [hkeq, Binary64.ofRat_value], hkeq.symm⟩
  obtain ⟨x, hx, hvalue⟩ := hread
  rw [nearestTo, Double.nearest, hx]
  simp only [Double.value?, hvalue, decide_eq_true_eq]
  by_cases hneg : (n : ℚ) < 0
  · rw [if_pos hneg, abs_of_neg hneg, neg_neg]
  · rw [if_neg hneg, abs_of_nonneg (not_lt.mp hneg)]

theorem nearestTo_ofInt (n : ℤ) : Double.ofInt n = nearestTo n := by
  have habs : |(n : ℚ)| = (n.natAbs : ℚ) := by
    rw [← Int.cast_abs, Int.abs_eq_natAbs, Int.cast_natCast]
  have hneg : decide ((n : ℚ) < 0) = decide (n < 0) := by
    rw [decide_eq_decide]
    exact_mod_cast Iff.rfl
  rw [Double.ofInt, nearestTo, habs, hneg]

theorem value_ofInt {n : ℤ} (hn : |n| ≤ 2 ^ 53) : (Double.ofInt n).value? = some (n : ℚ) := by
  rw [nearestTo_ofInt, nearestTo_intCast hn]

theorem abs_intCast_lt {n : ℤ} (hn : |n| ≤ 2 ^ 55) : |(n : ℚ)| < (2 : ℚ) ^ (1023 : ℤ) := by
  have hle : |(n : ℚ)| ≤ 2 ^ 55 := by exact_mod_cast hn
  have hpow : (2 : ℚ) ^ (55 : ℤ) < (2 : ℚ) ^ (1023 : ℤ) := zpow_lt_zpow_right₀ (by norm_num) (by norm_num)
  exact hle.trans_lt (by exact_mod_cast hpow)

/-- Just beyond `2 ^ 53` the nearest number is `2 ^ 53`. -/
theorem nearestTo_beyond : (nearestTo ((2 ^ 53 + 1 : ℤ) : ℚ)).value? = some (2 ^ 53) ∧
    (nearestTo ((-(2 ^ 53 + 1) : ℤ) : ℚ)).value? = some (-2 ^ 53) := by
  decide +kernel

/-- A number that is an integer is its own nearest. -/
theorem nearestTo_value {n : ℤ} {d : Double} (hd : d.value? = some (n : ℚ)) (hn : |n| ≤ 2 ^ 55) :
    (nearestTo n).value? = some (n : ℚ) := by
  obtain ⟨y, hy, hle⟩ := nearestTo_le hd (abs_intCast_lt hn) le_rfl
  obtain ⟨z, hz, hge⟩ := le_nearestTo hd (abs_intCast_lt hn) le_rfl
  rw [hy, Option.some.injEq] at hz
  rw [hy, le_antisymm hle (hz ▸ hge)]

/-- A rounded integer is below a number when the integer is. -/
theorem nearestTo_lt_iff {m n : ℤ} {d : Double} (hd : d.value? = some (n : ℚ))
    (hlow : -2 ^ 53 ≤ m) (hhigh : m ≤ 2 ^ 53 + 1) :
    ∃ y, (nearestTo m).value? = some y ∧ (y < n ↔ m < n) := by
  by_cases hexact : m ≤ 2 ^ 53
  · have hm : |m| ≤ 2 ^ 53 := abs_le.mpr ⟨hlow, hexact⟩
    exact ⟨m, nearestTo_intCast hm, by exact_mod_cast Iff.rfl⟩
  · have hm : m = 2 ^ 53 + 1 := by omega
    subst hm
    refine ⟨_, nearestTo_beyond.1, ?_⟩
    -- the integer itself is no number
    have hne : n ≠ 2 ^ 53 + 1 := by
      intro hn
      subst hn
      have hself := nearestTo_value hd (by norm_num)
      rw [nearestTo_beyond.1] at hself
      norm_num at hself
    have hcast : ((2 : ℚ) ^ 53 < n) ↔ (2 ^ 53 : ℤ) < n := by exact_mod_cast Iff.rfl
    rw [hcast]
    omega

/-- A number is below a rounded integer when it is below the integer. -/
theorem lt_nearestTo_iff {m n : ℤ} {d : Double} (hd : d.value? = some (n : ℚ))
    (hlow : -(2 ^ 53 + 1) ≤ m) (hhigh : m ≤ 2 ^ 53) :
    ∃ y, (nearestTo m).value? = some y ∧ (n < y ↔ n < m) := by
  by_cases hexact : -2 ^ 53 ≤ m
  · have hm : |m| ≤ 2 ^ 53 := abs_le.mpr ⟨hexact, hhigh⟩
    exact ⟨m, nearestTo_intCast hm, by exact_mod_cast Iff.rfl⟩
  · have hm : m = -(2 ^ 53 + 1) := by omega
    subst hm
    refine ⟨_, nearestTo_beyond.2, ?_⟩
    -- the integer itself is no number
    have hne : n ≠ -(2 ^ 53 + 1) := by
      intro hn
      subst hn
      have hself := nearestTo_value hd (by norm_num)
      rw [nearestTo_beyond.2] at hself
      norm_num at hself
    have hcast : ((n : ℚ) < -2 ^ 53) ↔ n < (-2 ^ 53 : ℤ) := by exact_mod_cast Iff.rfl
    rw [hcast]
    omega

/-- A rounded integer exceeds a small one when the integer does. -/
theorem small_lt_nearestTo_iff {k n : ℤ} (hk : |k| < 2 ^ 53) (hn : |n| ≤ 2 ^ 55) :
    ∃ y, (nearestTo n).value? = some y ∧ ((k : ℚ) < y ↔ k < n) := by
  have hk53 : |k| ≤ 2 ^ 53 := hk.le
  by_cases hlt : k < n
  · have hstep : |k + 1| ≤ 2 ^ 53 := by
      rw [abs_lt] at hk
      rw [abs_le]
      omega
    have hle : ((k + 1 : ℤ) : ℚ) ≤ n := by exact_mod_cast hlt
    obtain ⟨y, hy, hge⟩ := le_nearestTo (value_ofInt hstep) (abs_intCast_lt hn) hle
    refine ⟨y, hy, iff_of_true ?_ hlt⟩
    push_cast at hge
    linarith
  · have hle : (n : ℚ) ≤ k := by exact_mod_cast not_lt.mp hlt
    obtain ⟨y, hy, hge⟩ := nearestTo_le (value_ofInt hk53) (abs_intCast_lt hn) hle
    exact ⟨y, hy, iff_of_false (not_lt.mpr hge) hlt⟩

/-- A magnitude is its own nearest number. -/
theorem rounded_value (x : Binary64) : rounded x.value = some x.value := by
  have hneg : ¬ x.value < 0 := not_lt.mpr x.value_nonneg
  rw [rounded, nearestTo, abs_of_nonneg x.value_nonneg, Double.nearest, x.ofRat_value]
  simp [Double.value?, hneg]

theorem rounded_of_ofRat {q : ℚ} {x : Binary64} (hq : 0 ≤ q) (h : Binary64.ofRat q = some x) :
    rounded q = some x.value := by
  rw [rounded, nearestTo, abs_of_nonneg hq, Double.nearest, h]
  simp [Double.value?, not_lt.mpr hq]

/-- Integers up to `2 ^ 53 + 2` are magnitudes, but for one. -/
theorem Binary64.exists_value_eq {n : ℤ} (hnonneg : 0 ≤ n) (hn : n ≤ 2 ^ 53 + 2)
    (hne : n ≠ 2 ^ 53 + 1) : ∃ x : Binary64, x.value = n := by
  by_cases hsmall : n ≤ 2 ^ 53
  · have habs : |n| ≤ 2 ^ 53 := by rwa [abs_of_nonneg hnonneg]
    have hcast : (0 : ℚ) ≤ n := by exact_mod_cast hnonneg
    obtain ⟨x, -, hx⟩ := value_nearestTo (abs_intCast_lt (habs.trans (by norm_num)))
    rw [nearestTo_intCast habs, if_neg (not_lt.mpr hcast), Option.some.injEq] at hx
    exact ⟨x, hx.symm⟩
  · have hlast : n = 2 ^ 53 + 2 := by omega
    refine ⟨⟨2 ^ 52 + 1, 1, by norm_num, exp_pow53_ge, exp_pow53_le, Or.inl (by norm_num)⟩, ?_⟩
    rw [hlast, value]
    norm_num

theorem rounded_intCast {n : ℤ} (hnonneg : 0 ≤ n) (hn : n ≤ 2 ^ 53 + 2) (hne : n ≠ 2 ^ 53 + 1) :
    rounded n = some (n : ℚ) := by
  obtain ⟨x, hx⟩ := Binary64.exists_value_eq hnonneg hn hne
  rw [← hx, rounded_value]

/-! ## Relative error -/

namespace Binary64

/-- **Before a magnitude** there is none closer than a `2 ^ 53`rd of it. -/
theorem value_le_before {u v : Binary64} (h : u.value < v.value) :
    u.value ≤ v.value - v.value / 2 ^ 53 := by
  have hpow : (0 : ℚ) < (2 : ℚ) ^ v.exp := by positivity
  have hsig : (v.sig : ℚ) < 2 ^ 53 := by exact_mod_cast v.sig_lt
  have hv : v.value / (2 : ℚ) ^ v.exp = v.sig := by
    rw [value, mul_div_assoc, div_self hpow.ne', mul_one]
  have hunits : u.value / (2 : ℚ) ^ v.exp ≤ v.sig - v.sig / 2 ^ 53 := by
    by_cases hexp : v.exp ≤ u.exp
    · obtain ⟨n, hn⟩ := value_div_unit hexp
      have hlt : u.value / (2 : ℚ) ^ v.exp < v.sig := by
        rw [← hv]
        gcongr
      rw [hn] at hlt ⊢
      have hstep : n + 1 ≤ v.sig := by exact_mod_cast hlt
      have hstep' : (n : ℚ) + 1 ≤ v.sig := by exact_mod_cast hstep
      linarith
    · obtain ⟨hbelow, hlow⟩ := value_lt_binade (not_le.mp hexp)
      linarith
  have hscaled := (div_le_iff₀ hpow).mp hunits
  have hsplit : (v.sig - v.sig / 2 ^ 53) * (2 : ℚ) ^ v.exp = v.value - v.value / 2 ^ 53 := by
    unfold value
    ring
  rwa [hsplit] at hscaled

/-- **Rounding takes away** no more than a `2 ^ 53`rd of a rational that is not tiny. -/
theorem le_value_of_ofRat {q : ℚ} {x : Binary64} (hq : (2 : ℚ) ^ (-1022 : ℤ) ≤ q)
    (h : ofRat q = some x) : q - q / 2 ^ 53 ≤ x.value := by
  have hpos : 0 < q := lt_of_lt_of_le (by positivity) hq
  have hpow : (0 : ℚ) < (2 : ℚ) ^ x.exp := by positivity
  -- the least normal number is rounded to itself at least
  have hnormal : 2 ^ 52 ≤ x.sig := by
    have hleast : (⟨2 ^ 52, -1074, least_lt, le_rfl, by norm_num, Or.inl le_rfl⟩ : Binary64).value ≤ q := by
      refine le_trans (le_of_eq ?_) hq
      simp only [value]
      rw [show (-1022 : ℤ) = 52 + -1074 by norm_num, zpow_add₀ (by norm_num)]
      norm_num
    have hle := le_ofRat hleast h
    by_contra hsmall
    have hexp : x.exp = -1074 := x.canonical.resolve_left hsmall
    simp only [value, hexp] at hle
    have hsig := le_of_mul_le_mul_right hle (by positivity)
    exact hsmall (by exact_mod_cast hsig)
  have hsig : (2 : ℚ) ^ 52 ≤ x.sig := by exact_mod_cast hnormal
  obtain ⟨hdist, -⟩ := abs_le.mp (ofRat_dist hpos h)
  have hunits : q / (2 : ℚ) ^ x.exp - q / (2 : ℚ) ^ x.exp / 2 ^ 53 ≤ x.sig := by
    by_cases hlow : q / (2 : ℚ) ^ x.exp ≤ x.sig
    · have hnonneg : 0 ≤ q / (2 : ℚ) ^ x.exp / 2 ^ 53 := by positivity
      linarith
    · have hmore : (2 : ℚ) ^ 52 ≤ q / (2 : ℚ) ^ x.exp := hsig.trans (not_le.mp hlow).le
      linarith
  rw [div_div, mul_comm, ← div_div, ← sub_div, div_le_iff₀ hpow] at hunits
  exact hunits

/-! ## Times to live -/

section TimeToLive
variable {e now u r : Binary64}

/-- What is left until a later number is not tiny. -/
theorem difference_ge (hone : 1 ≤ e.value) (hnow : now.value < e.value) :
    (2 : ℚ) ^ (-1022 : ℤ) ≤ e.value - now.value := by
  have hgap := value_le_before hnow
  have hleast : (2 : ℚ) ^ (-1022 : ℤ) ≤ (2 : ℚ) ^ (-53 : ℤ) :=
    zpow_le_zpow_right₀ (by norm_num) (by norm_num)
  have hpow : (2 : ℚ) ^ (-53 : ℤ) = 1 / 2 ^ 53 := by
    rw [zpow_neg, one_div]
    rfl
  rw [hpow] at hleast
  linarith

/-- **What is left, rounded**, reaches past every number before the end. -/
theorem lt_add_difference (hone : 1 ≤ e.value) (hnow : now.value < e.value)
    (hr : ofRat (e.value - now.value) = some r) (hu : u.value < e.value) :
    u.value < now.value + r.value := by
  have hlow := le_value_of_ofRat (difference_ge hone hnow) hr
  have hbefore := value_le_before hu
  by_cases hzero : now.value = 0
  · -- at the epoch nothing is rounded
    rw [hzero, sub_zero, ofRat_value, Option.some.injEq] at hr
    rw [hzero, ← hr]
    linarith
  · have hpos : 0 < now.value := lt_of_le_of_ne now.value_nonneg (Ne.symm hzero)
    linarith

/-- **In rounded milliseconds** it does, when at least half of the time to the end has passed. -/
theorem lt_add_millis {p : Binary64} (hone : 1 ≤ e.value) (hnow : now.value < e.value)
    (hhalf : e.value ≤ 2 * now.value) (hr : ofRat (e.value - now.value) = some r)
    (hp : ofRat (r.value * 1000) = some p) (hu : u.value < e.value) :
    u.value < now.value + p.value / 1000 := by
  have hleast := difference_ge hone hnow
  have hlow := le_value_of_ofRat hleast hr
  have hbefore := value_le_before hu
  have hleft : 0 < e.value - now.value := sub_pos.mpr hnow
  have hmillis : (2 : ℚ) ^ (-1022 : ℤ) ≤ r.value * 1000 := by linarith
  have hlow' := le_value_of_ofRat hmillis hp
  -- two roundings take away less than twice as much as one
  nlinarith

/-- **What is left in milliseconds** reaches past every number before the end, for an end
at an integer that is a number. -/
theorem lt_add_millisLeft {n : ℤ} (hn : n ≤ 2 ^ 53 + 2) (hne : n ≠ 2 ^ 53 + 1)
    (hnow : now.value < n) (hhalf : (n : ℚ) ≤ 2 * now.value) :
    ∃ millis, millisLeft n now.value = some millis ∧
      ∀ u : Binary64, u.value < n → u.value < now.value + millis / 1000 := by
  have hpos : 0 < n := by
    exact_mod_cast now.value_nonneg.trans_lt hnow
  obtain ⟨e, he⟩ := exists_value_eq hpos.le hn hne
  have hone : 1 ≤ e.value := by
    rw [he]
    exact_mod_cast hpos
  have hsmall : (n : ℚ) ≤ 2 ^ 54 := by
    exact_mod_cast hn.trans (by norm_num)
  have hnonneg := now.value_nonneg
  rw [← he] at hnow hhalf hsmall ⊢
  have hlarge : (2 : ℚ) ^ (64 : ℤ) < (2 : ℚ) ^ (1023 : ℤ) :=
    zpow_lt_zpow_right₀ (by norm_num) (by norm_num)
  rw [show (2 : ℚ) ^ (64 : ℤ) = 2 ^ 54 * 1024 by norm_num] at hlarge
  have hleft : e.value - now.value ≤ 2 ^ 54 * 1024 := by linarith
  obtain ⟨r, hr⟩ := exists_ofRat (hleft.trans_lt hlarge)
  have hbound : r.value ≤ e.value := ofRat_le (by linarith) hr
  have hscaled : r.value * 1000 ≤ 2 ^ 54 * 1024 := by linarith
  obtain ⟨p, hp⟩ := exists_ofRat (hscaled.trans_lt hlarge)
  refine ⟨⌈p.value⌉, ?_, fun u hu => ?_⟩
  · have hmillis : 0 ≤ r.value * 1000 := mul_nonneg r.value_nonneg (by norm_num)
    rw [millisLeft, rounded_of_ofRat (sub_nonneg.mpr hnow.le) hr, Option.bind_eq_bind,
      Option.bind_some, rounded_of_ofRat hmillis hp]
    rfl
  · have hreach := lt_add_millis hone hnow hhalf hr hp hu
    have hceil := Int.le_ceil p.value
    linarith

end TimeToLive
end Binary64

end SwarmAuth
