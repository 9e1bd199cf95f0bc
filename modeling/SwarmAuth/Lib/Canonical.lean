import SwarmAuth.Lib.Numeral

/-!
# Canonical decimal texts

A layout without an exponent, without leading zeros before the point or trailing zeros after
it, is determined by its value.

## Main definitions

* `Layout.Canonical`, `canonical_positional` — such layouts, and how to come by them.
* `Layout.Canonical.eq_of_value` — one for each value.
-/
namespace SwarmAuth

/-! ## Digits -/

theorem digitsValue_eq_ofDigits (cs : List ℕ) :
    digitsValue cs = Nat.ofDigits 10 (cs.map (· - 48)).reverse := by
  induction cs using List.reverseRecOn with
  | nil => rfl
  | append_singleton cs c ih =>
      rw [digitsValue_append, ih, List.map_append, List.reverse_append, List.map_singleton,
        List.reverse_singleton, List.singleton_append, Nat.ofDigits_cons]
      simp [digitsValue]
      ring

theorem digit_lt {cs : List ℕ} (h : ∀ c ∈ cs, isDigit c = true) :
    ∀ d ∈ (cs.map (· - 48)).reverse, d < 10 := by
  intro d hd
  rw [List.mem_reverse, List.mem_map] at hd
  obtain ⟨c, hc, rfl⟩ := hd
  have := isDigit_iff.mp (h c hc)
  omega

theorem digitsValue_lt {cs : List ℕ} (h : ∀ c ∈ cs, isDigit c = true) :
    digitsValue cs < 10 ^ cs.length := by
  have hlt := Nat.ofDigits_lt_base_pow_length (b := 10) (by norm_num) (digit_lt h)
  rwa [← digitsValue_eq_ofDigits, List.length_reverse, List.length_map] at hlt

theorem map_digits_injective {cs ds : List ℕ} (hcs : ∀ c ∈ cs, isDigit c = true)
    (hds : ∀ c ∈ ds, isDigit c = true) (h : cs.map (· - 48) = ds.map (· - 48)) : cs = ds := by
  have hadd : ∀ {l : List ℕ}, (∀ c ∈ l, isDigit c = true) → (l.map (· - 48)).map (48 + ·) = l := by
    intro l hl
    rw [List.map_map]
    refine (List.map_congr_left fun c hc => ?_).trans (List.map_id l)
    have := isDigit_iff.mp (hl c hc)
    simp only [Function.comp, id]
    omega
  rw [← hadd hcs, h, hadd hds]

/-- Digits of the same number are the same, if there are as many. -/
theorem digitsValue_injective {cs ds : List ℕ} (hcs : ∀ c ∈ cs, isDigit c = true)
    (hds : ∀ c ∈ ds, isDigit c = true) (hlen : cs.length = ds.length)
    (h : digitsValue cs = digitsValue ds) : cs = ds := by
  rw [digitsValue_eq_ofDigits, digitsValue_eq_ofDigits] at h
  have hrev := Nat.ofDigits_inj_of_len_eq (b := 10) (by norm_num) (by simpa using hlen)
    (digit_lt hcs) (digit_lt hds) h
  exact map_digits_injective hcs hds (List.reverse_injective hrev)

/-- Digits without leading zeros are those of their number. -/
theorem natText_digitsValue {cs : List ℕ} (hcs : ∀ c ∈ cs, isDigit c = true) (hne : cs ≠ [])
    (hzero : cs.head? = some 48 → cs = [48]) : natText (digitsValue cs) = cs := by
  by_cases h48 : cs = [48]
  · rw [h48]
    rfl
  obtain ⟨c, rest, rfl⟩ := List.exists_cons_of_ne_nil hne
  have hc : c ≠ 48 := fun heq => h48 (hzero (by rw [heq]; rfl))
  have hdigit := isDigit_iff.mp (hcs c List.mem_cons_self)
  have hdigits : Nat.digits 10 (digitsValue (c :: rest)) = ((c :: rest).map (· - 48)).reverse := by
    rw [digitsValue_eq_ofDigits]
    refine Nat.digits_ofDigits 10 (by norm_num) _ (digit_lt hcs) fun _ => ?_
    rw [List.getLast_reverse, List.head_map, List.head_cons]
    omega
  have hpos : digitsValue (c :: rest) ≠ 0 := by
    intro h0
    rw [h0, Nat.digits_zero] at hdigits
    simp at hdigits
  apply map_digits_injective (fun d hd => isDigit_natText hd) hcs
  rw [natText, if_neg hpos, hdigits, List.reverse_reverse, List.map_map]
  refine (List.map_congr_left fun d hd => ?_).trans (List.map_id _)
  simp

/-! ## Canonical layouts -/

/-- No exponent, no leading zeros before the point, no trailing zeros after it. -/
structure Layout.Canonical (l : Layout) : Prop extends l.Valid where
  no_exponent : l.exponent = none
  no_trailing_zero : ∀ h : l.frac ≠ [], l.frac.getLast h ≠ 48

/-- Without the zeros that end its fraction a layout is canonical. -/
theorem Layout.canonical_stripZeros {l : Layout} (h : l.Valid) (he : l.exponent = none) :
    l.stripZeros.Canonical where
  whole_digit := h.whole_digit
  whole_ne := h.whole_ne
  no_leading_zero := h.no_leading_zero
  frac_digit := fun c hc => h.frac_digit c ((List.rdropWhile_prefix _ _).subset hc)
  no_exponent := he
  no_trailing_zero := by
    intro hne heq
    exact List.rdropWhile_last_not _ _ hne (decide_eq_true heq)

/-- By position, without the zeros that end it, a decimal is laid out canonically. -/
theorem canonical_positional {d : Decimal} (h : d.coeff = 0 → d.exp ≤ 0) :
    (positional [] d).stripZeros.Canonical := by
  refine Layout.canonical_stripZeros (positional_valid [] d (by simp) h) ?_
  simp only [positional]
  split_ifs <;> rfl

theorem value_of_no_exponent {l : Layout} (h : l.exponent = none) :
    l.decimal.value * 10 ^ l.frac.length = digitsValue (l.whole ++ l.frac) := by
  rw [Layout.decimal, Decimal.value, h, Option.elim_none, zero_sub, zpow_neg, zpow_natCast,
    inv_mul_cancel_right₀ (by positivity)]

/-- The fractions of one value are as long. -/
theorem Layout.Canonical.length_frac_le {l m : Layout} (hl : l.Canonical) (hm : m.Canonical)
    (h : l.decimal.value = m.decimal.value) : m.frac.length ≤ l.frac.length := by
  by_contra hlt
  rw [not_le] at hlt
  have hne : m.frac ≠ [] := List.ne_nil_of_length_pos (by omega)
  have hlast := hm.no_trailing_zero hne
  have hdigit := isDigit_iff.mp (hm.frac_digit _ (List.getLast_mem hne))
  have hvalue : digitsValue (m.whole ++ m.frac) =
      digitsValue (l.whole ++ l.frac) * 10 ^ (m.frac.length - l.frac.length) := by
    have hcast : (digitsValue (m.whole ++ m.frac) : ℚ) =
        digitsValue (l.whole ++ l.frac) * 10 ^ (m.frac.length - l.frac.length) := by
      rw [← value_of_no_exponent hm.no_exponent, ← value_of_no_exponent hl.no_exponent, h, mul_assoc,
        ← pow_add, Nat.add_sub_cancel' hlt.le]
    exact_mod_cast hcast
  have hten : 10 ∣ digitsValue (m.whole ++ m.frac) := by
    rw [hvalue]
    exact Dvd.dvd.mul_left (dvd_pow_self 10 (by omega)) _
  rw [← List.dropLast_append_getLast hne, ← List.append_assoc, digitsValue_append] at hten
  simp only [digitsValue, List.foldl_cons, List.foldl_nil, List.length_singleton] at hten
  omega

/-- **One canonical layout for each value.** -/
theorem Layout.Canonical.eq_of_value {l m : Layout} (hl : l.Canonical) (hm : m.Canonical)
    (h : l.decimal.value = m.decimal.value) : l = m := by
  have hlen := le_antisymm (hm.length_frac_le hl h.symm) (hl.length_frac_le hm h)
  have hvalue : digitsValue (l.whole ++ l.frac) = digitsValue (m.whole ++ m.frac) := by
    have hcast : (digitsValue (l.whole ++ l.frac) : ℚ) = digitsValue (m.whole ++ m.frac) := by
      rw [← value_of_no_exponent hm.no_exponent, ← value_of_no_exponent hl.no_exponent, h, hlen]
    exact_mod_cast hcast
  rw [digitsValue_append, digitsValue_append, hlen] at hvalue
  have hlt := digitsValue_lt hl.frac_digit
  have hmt := digitsValue_lt hm.frac_digit
  rw [hlen] at hlt
  have hdiv : ∀ a {r : ℕ}, r < 10 ^ m.frac.length →
      (a * 10 ^ m.frac.length + r) / 10 ^ m.frac.length = a := by
    intro a r hr
    rw [Nat.add_comm, Nat.add_mul_div_right _ _ (by positivity), Nat.div_eq_of_lt hr, zero_add]
  have hwhole : digitsValue l.whole = digitsValue m.whole := by
    rw [← hdiv (digitsValue l.whole) hlt, hvalue, hdiv _ hmt]
  have hfrac : digitsValue l.frac = digitsValue m.frac := by
    rw [hwhole] at hvalue
    exact Nat.add_left_cancel hvalue
  have hw : l.whole = m.whole := by
    rw [← natText_digitsValue hl.whole_digit hl.whole_ne hl.no_leading_zero, hwhole,
      natText_digitsValue hm.whole_digit hm.whole_ne hm.no_leading_zero]
  have hf : l.frac = m.frac := digitsValue_injective hl.frac_digit hm.frac_digit hlen hfrac
  cases l
  cases m
  simp only [Layout.mk.injEq]
  exact ⟨hw, hf, hl.no_exponent.trans hm.no_exponent.symm⟩

end SwarmAuth
