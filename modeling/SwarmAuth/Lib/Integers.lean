import SwarmAuth.Lib.Numeral
import Mathlib.Algebra.Order.Floor.Semifield

/-!
# Integers in binary64

Below `2 ^ 53` every integer is a number of the format, no other integer reads to it, and
its shortest decimal is the integer itself with its zeros counted. So a layout without an
exponent spells it digit by digit.

## Main definitions

* `Binary64.ofRat_dist` — what reads to a magnitude is within half a unit of it.
* `Binary64.ofNat`, `Binary64.value_ofNat` — integers as magnitudes.
* `Binary64.shortest_natCast`, `positional_natCast` — their decimals and texts.
-/
namespace SwarmAuth

theorem roundHalfEven_dist {q : ℚ} (hq : 0 ≤ q) : |(roundHalfEven q : ℚ) - q| ≤ 1 / 2 := by
  have hnear := Binary64.abs_sub_roundHalfEven hq
  by_cases hr : roundHalfEven q = ⌊q⌋₊
  · rw [if_pos hr] at hnear
    rwa [hr]
  · have hup : roundHalfEven q = ⌊q⌋₊ + 1 := by
      simp only [roundHalfEven] at hr ⊢
      split_ifs at hr ⊢ <;> first | rfl | exact absurd rfl hr
    rw [if_neg hr] at hnear
    rw [hup]
    push_cast
    exact hnear

namespace Binary64

theorem make?_eq {sig : ℕ} {exp : ℤ} {x : Binary64} (h : make? sig exp = some x) :
    x.sig = sig ∧ x.exp = exp := by
  rw [make?] at h
  split_ifs at h
  rw [← Option.some.inj h]
  exact ⟨rfl, rfl⟩

/-- **What reads to a magnitude is within half a unit of its last place.** -/
theorem ofRat_dist {q : ℚ} {x : Binary64} (hq : 0 < q) (h : ofRat q = some x) :
    |(x.sig : ℚ) - q / (2 : ℚ) ^ x.exp| ≤ 1 / 2 := by
  rw [ofRat, if_neg (not_le.mpr hq)] at h
  simp only at h
  set e := max (Int.log 2 q - 52) (-1074) with he
  have hdist := roundHalfEven_dist (q := q / (2 : ℚ) ^ e) (by positivity)
  split_ifs at h with hn
  · obtain ⟨hsig, hexp⟩ := make?_eq h
    rw [hsig, hexp]
    exact hdist
  · obtain ⟨hsig, hexp⟩ := make?_eq h
    -- carried into the next binade, whose unit is twice as wide
    have hlog : q < (2 : ℚ) ^ (e + 53) := by
      have hlt : q < ((2 : ℕ) : ℚ) ^ (e + 53) :=
        (Int.lt_zpow_iff_log_lt (by norm_num) hq).mpr (by omega)
      exact_mod_cast hlt
    have hlt : q / (2 : ℚ) ^ e < 2 ^ 53 := by
      rw [div_lt_iff₀ (by positivity), ← zpow_natCast, ← zpow_add₀ (by norm_num), add_comm]
      exact hlog
    have hge : (2 : ℚ) ^ 53 ≤ (roundHalfEven (q / (2 : ℚ) ^ e) : ℚ) := by
      exact_mod_cast not_lt.mp hn
    have hhalf : q / (2 : ℚ) ^ (e + 1) = q / (2 : ℚ) ^ e / 2 := by
      rw [zpow_add_one₀ (by norm_num), div_mul_eq_div_div]
    obtain ⟨-, hhi⟩ := abs_le.mp hdist
    rw [hsig, hexp, hhalf, abs_le]
    push_cast
    constructor <;> linarith

/-- Magnitudes below `2 ^ 53` have units no wider than one. -/
theorem exp_nonpos {x : Binary64} (h : x.value < 2 ^ 53) : x.exp ≤ 0 := by
  by_contra hpos
  have hcan : 2 ^ 52 ≤ x.sig := x.canonical.resolve_right (by omega)
  have hsig : (2 : ℚ) ^ 52 ≤ x.sig := by exact_mod_cast hcan
  have hunit : (2 : ℚ) ^ (1 : ℤ) ≤ (2 : ℚ) ^ x.exp := zpow_le_zpow_right₀ (by norm_num) (by omega)
  have hval : (2 : ℚ) ^ 52 * (2 : ℚ) ^ (1 : ℤ) ≤ x.value := by
    unfold value
    gcongr
  rw [zpow_one] at hval
  linarith

/-- An integer below `2 ^ 53` as a magnitude. -/
def ofNat (n : ℕ) (h : n < 2 ^ 53) : Binary64 :=
  if h0 : n = 0 then zero
  else
    have hlog : Nat.log 2 n ≤ 52 := by
      have := Nat.log_lt_of_lt_pow h0 h
      omega
    have hlo : 2 ^ Nat.log 2 n ≤ n := Nat.pow_log_le_self 2 h0
    have hhi : n < 2 ^ (Nat.log 2 n + 1) := Nat.lt_pow_succ_log_self (by norm_num) n
    have hsplit : 2 ^ Nat.log 2 n * 2 ^ (52 - Nat.log 2 n) = 2 ^ 52 := by
      rw [← pow_add, Nat.add_sub_cancel' hlog]
    { sig := n * 2 ^ (52 - Nat.log 2 n)
      exp := Nat.log 2 n - 52
      sig_lt := by
        calc n * 2 ^ (52 - Nat.log 2 n) < 2 ^ (Nat.log 2 n + 1) * 2 ^ (52 - Nat.log 2 n) := by gcongr
          _ = 2 * (2 ^ Nat.log 2 n * 2 ^ (52 - Nat.log 2 n)) := by ring
          _ = 2 ^ 53 := by rw [hsplit]; norm_num
      exp_ge := by omega
      exp_le := by omega
      canonical := by
        left
        calc 2 ^ 52 = 2 ^ Nat.log 2 n * 2 ^ (52 - Nat.log 2 n) := hsplit.symm
          _ ≤ n * 2 ^ (52 - Nat.log 2 n) := by gcongr }

@[simp] theorem value_ofNat (n : ℕ) (h : n < 2 ^ 53) : (ofNat n h).value = n := by
  rw [ofNat]
  split_ifs with h0
  · rw [h0]
    simp [value, zero]
  · have hlog : Nat.log 2 n ≤ 52 := by
      have := Nat.log_lt_of_lt_pow h0 h
      omega
    simp only [value]
    push_cast
    rw [mul_assoc, ← zpow_natCast, ← zpow_add₀ (by norm_num)]
    have hexp : ((52 - Nat.log 2 n : ℕ) : ℤ) + (Nat.log 2 n - 52) = 0 := by omega
    rw [hexp, zpow_zero, mul_one]

/-- An integer below `2 ^ 53` reads exactly. -/
theorem ofRat_natCast (n : ℕ) (h : n < 2 ^ 53) : ofRat n = some (ofNat n h) := by
  rw [← ofRat_value (ofNat n h), value_ofNat]

/-- No other integer reads to an integer below `2 ^ 53`. -/
theorem eq_of_ofRat_natCast {m n : ℕ} {x : Binary64} (hn : n < 2 ^ 53) (hx : x.value = n)
    (hm : ofRat m = some x) : m = n := by
  by_cases hm0 : m = 0
  · subst hm0
    rw [Nat.cast_zero, ofRat_zero] at hm
    rw [← Option.some.inj hm] at hx
    have hzero : (0 : ℚ) = n := by rw [← hx]; simp [value, zero]
    exact_mod_cast hzero
  · have hmpos : (0 : ℚ) < m := by exact_mod_cast Nat.pos_of_ne_zero hm0
    have hdist := ofRat_dist hmpos hm
    have hpow : (0 : ℚ) < (2 : ℚ) ^ x.exp := by positivity
    have hle : (2 : ℚ) ^ x.exp ≤ 1 := by
      have hexp : x.exp ≤ 0 := exp_nonpos (by rw [hx]; exact_mod_cast hn)
      calc (2 : ℚ) ^ x.exp ≤ (2 : ℚ) ^ (0 : ℤ) := zpow_le_zpow_right₀ (by norm_num) hexp
        _ = 1 := zpow_zero _
    have hsig : (x.sig : ℚ) = n / (2 : ℚ) ^ x.exp := by
      rw [← hx, value, mul_div_assoc, div_self hpow.ne', mul_one]
    rw [hsig, ← sub_div, abs_div, abs_of_pos hpow, div_le_iff₀ hpow] at hdist
    have hclose : |((n : ℤ) - (m : ℤ) : ℚ)| < 1 := by
      push_cast
      linarith
    have hint : |(n : ℤ) - (m : ℤ)| < 1 := by exact_mod_cast hclose
    have := Int.abs_lt_one_iff.mp hint
    omega

/-! ## Shortest decimals of integers -/

/-- The shortest decimal is the first candidate. -/
theorem shortest_le {x : Binary64} {k : ℕ} (h : x.sig ≠ 0) (hk : k < 17)
    (hc : candidate x (k + 1) ≠ none) : ∃ j ≤ k, candidate x (j + 1) = some (shortest x) := by
  rw [shortest, if_neg h]
  cases hfind : (List.range 17).findSome? fun i => candidate x (i + 1) with
  | none =>
      rw [List.findSome?_eq_none_iff] at hfind
      exact absurd (hfind k (List.mem_range.mpr hk)) hc
  | some d =>
      obtain ⟨before, j, after, hsplit, hd, hnone⟩ := List.findSome?_eq_some_iff.mp hfind
      refine ⟨j, ?_, hd⟩
      by_contra hlt
      -- `k` stands before `j` in the range
      have hj : before.length = j := by
        have hget : (List.range 17)[before.length]? = some j := by
          rw [hsplit, List.getElem?_append_right le_rfl, Nat.sub_self]
          rfl
        rw [List.getElem?_range] at hget
        · exact Option.some.inj hget
        · have hlen := congrArg List.length hsplit
          simp only [List.length_range, List.length_append, List.length_cons] at hlen
          omega
      have hkmem : k ∈ before := by
        have hget : (List.range 17)[k]? = before[k]? := by
          rw [hsplit, List.getElem?_append_left (by omega)]
        rw [List.getElem?_range hk] at hget
        exact List.mem_of_getElem? hget.symm
      exact hc (hnone k hkmem)

section Natural
variable {x : Binary64} {n : ℕ}

theorem lastPlace_natCast (hx : x.value = n) (k : ℕ) : lastPlace x k = Nat.log 10 n + 1 - k := by
  rw [lastPlace, hx, Int.log_natCast]

/-- Before its last digit, an integer's candidate is the integer itself, if no other multiple
of ten reads to it. -/
theorem candidate_natCast (hx : x.value = n)
    (hunique : ∀ m : ℕ, 10 ∣ m → ofRat m = some x → m = n) {k : ℕ} (hk : k ≤ Nat.log 10 n)
    {d : Decimal} (hc : candidate x k = some d) : ∃ c e : ℕ, d = ⟨c, e⟩ ∧ c * 10 ^ e = n := by
  obtain ⟨e, he⟩ : ∃ e : ℕ, lastPlace x k = (e + 1 : ℕ) := by
    refine ⟨Nat.log 10 n - k, ?_⟩
    rw [lastPlace_natCast hx]
    omega
  have hfloor : ⌊x.value / (10 : ℚ) ^ lastPlace x k⌋₊ = n / 10 ^ (e + 1) := by
    rw [he, hx, zpow_natCast]
    have hcast : (n : ℚ) / (10 : ℚ) ^ (e + 1) = (n : ℚ) / ((10 ^ (e + 1) : ℕ) : ℚ) := by
      push_cast
      rfl
    rw [hcast, Nat.floor_div_eq_div]
  obtain ⟨hread, hd⟩ := candidate_reads hc
  have hten : ∀ c : ℕ, 10 ∣ c * 10 ^ (e + 1) := fun c =>
    Dvd.dvd.mul_left (dvd_pow_self 10 (Nat.succ_ne_zero e)) c
  rcases hd with rfl | rfl
  · refine ⟨n / 10 ^ (e + 1), e + 1, by rw [below, hfloor, he], ?_⟩
    rw [value_below, hfloor, he, zpow_natCast] at hread
    exact hunique _ (hten _) (by exact_mod_cast hread)
  · have hlt : n < (n / 10 ^ (e + 1) + 1) * 10 ^ (e + 1) :=
      (Nat.div_lt_iff_lt_mul (by positivity)).mp (Nat.lt_succ_self _)
    rw [value_above, hfloor, he, zpow_natCast] at hread
    have heq : (n / 10 ^ (e + 1) + 1) * 10 ^ (e + 1) = n :=
      hunique _ (hten _) (by exact_mod_cast hread)
    omega

/-- The candidate with all the digits of an integer is that integer. -/
theorem candidate_all_natCast (hx : x.value = n) :
    candidate x (Nat.log 10 n + 1) = some ⟨n, 0⟩ := by
  have hplace : lastPlace x (Nat.log 10 n + 1) = 0 := by
    rw [lastPlace_natCast hx]
    push_cast
    ring
  have hfloor : ⌊x.value / (10 : ℚ) ^ lastPlace x (Nat.log 10 n + 1)⌋₊ = n := by
    rw [hplace, zpow_zero, div_one, hx, Nat.floor_natCast]
  have hbelow : below x (Nat.log 10 n + 1) = ⟨n, 0⟩ := by rw [below, hfloor, hplace]
  have hround : roundHalfEven (x.value / (10 : ℚ) ^ lastPlace x (Nat.log 10 n + 1)) =
      ⌊x.value / (10 : ℚ) ^ lastPlace x (Nat.log 10 n + 1)⌋₊ := by
    rw [hfloor, hplace, zpow_zero, div_one, hx]
    exact roundHalfEven_eq (by positivity) (by simp)
  have hread : ofRat (below x (Nat.log 10 n + 1)).value = some x := by
    rw [value_below, hfloor, hplace, zpow_zero, mul_one, ← hx, ofRat_value]
  simp only [candidate]
  rw [if_pos ⟨hread, Or.inl hround⟩, hbelow]

/-- The shortest decimal of an integer is the integer, if no other multiple of ten reads to it. -/
theorem shortest_whole (hx : x.value = n) (hn : n < 10 ^ 17)
    (hunique : ∀ m : ℕ, 10 ∣ m → ofRat m = some x → m = n) :
    ∃ c e : ℕ, shortest x = ⟨c, e⟩ ∧ c * 10 ^ e = n ∧ (c = 0 → e = 0) := by
  by_cases h0 : n = 0
  · subst h0
    have hsig : x.sig = 0 := by
      by_contra hne
      have := value_pos hne
      rw [hx, Nat.cast_zero] at this
      exact lt_irrefl _ this
    exact ⟨0, 0, by rw [shortest, if_pos hsig]; rfl, rfl, fun _ => rfl⟩
  · have hsig : x.sig ≠ 0 := by
      intro hzero
      rw [value, hzero, Nat.cast_zero, zero_mul] at hx
      exact h0 (by exact_mod_cast hx.symm)
    have hlog : Nat.log 10 n < 17 := Nat.log_lt_of_lt_pow h0 hn
    have hall := candidate_all_natCast hx
    obtain ⟨j, hj, hc⟩ := shortest_le hsig hlog (by rw [hall]; exact Option.some_ne_none _)
    have hzero : ∀ c e : ℕ, c * 10 ^ e = n → c = 0 → e = 0 := by
      intro c e hval hc0
      rw [hc0, zero_mul] at hval
      exact absurd hval.symm h0
    rcases hj.lt_or_eq with hlt | rfl
    · obtain ⟨c, e, hd, hval⟩ := candidate_natCast hx hunique hlt hc
      exact ⟨c, e, hd, hval, hzero c e hval⟩
    · rw [hall] at hc
      exact ⟨n, 0, (Option.some.inj hc).symm, by rw [pow_zero, mul_one], fun _ => rfl⟩

/-- **The shortest decimal of an integer is the integer**, its final zeros counted. -/
theorem shortest_natCast (hx : x.value = n) (hn : n < 2 ^ 53) :
    ∃ c e : ℕ, shortest x = ⟨c, e⟩ ∧ c * 10 ^ e = n ∧ (c = 0 → e = 0) :=
  shortest_whole hx (hn.trans (by norm_num)) fun _ _ hm => eq_of_ofRat_natCast hn hx hm

end Natural
end Binary64

/-- Zeros after the digits of a number. -/
theorem natText_mul_pow {c : ℕ} (hc : c ≠ 0) (e : ℕ) :
    natText (c * 10 ^ e) = natText c ++ List.replicate e 48 := by
  have hne : c * 10 ^ e ≠ 0 := Nat.mul_ne_zero hc (by positivity)
  rw [natText, if_neg hne, natText, if_neg hc, mul_comm,
    Nat.digits_base_pow_mul (by norm_num) (Nat.pos_of_ne_zero hc), List.reverse_append,
    List.map_append, List.reverse_replicate, List.map_replicate]

/-- Written without an exponent, a whole decimal is its number and the tail. -/
theorem positional_whole (tail : List ℕ) {c e : ℕ} (h0 : c = 0 → e = 0) :
    positional tail ⟨c, e⟩ = ⟨natText (c * 10 ^ e), tail, none⟩ := by
  have hlen := natText_length_pos c
  simp only [positional]
  rw [if_neg (by omega), if_neg (by omega)]
  have hzeros : ((natText c).length + (e : ℤ) - (natText c).length).toNat = e := by omega
  rw [hzeros]
  by_cases hc : c = 0
  · rw [h0 hc, hc]
    rfl
  · rw [natText_mul_pow hc]

end SwarmAuth
