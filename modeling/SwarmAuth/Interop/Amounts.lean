import SwarmAuth.Python.Json
import SwarmAuth.Python.Claims
import SwarmAuth.Node.Encode
import SwarmAuth.TypeScript.Token
import SwarmAuth.Js.Value

/-!
# The text of an amount

Every signer writes `max_amount_usd` as the language has it, with a fraction digit on whole
numbers. The languages turn to an exponent at different magnitudes, and pad it differently:
the texts agree on the magnitudes between, and far out.

## Main definitions

* `pow_le_value_iff` — a bound on a decimal is one on where its point stands.
* `Shared` — the amounts with one text.
* `formatAmount_eq_iff` — Node and Python write those the same, and no others.
* `WrittenByAll`, `amount_text_iff` — so do all three signers.
-/
namespace SwarmAuth.Interop

open Binary64

/-! ## Layouts -/

/-- A bound on a decimal is one on where its point stands. -/
theorem pow_le_value_iff {d : Decimal} (h : d.coeff ≠ 0) {j : ℤ} :
    (10 : ℚ) ^ j ≤ d.value ↔ j < (natText d.coeff).length + d.exp := by
  have hlen : (natText d.coeff).length = Nat.log 10 d.coeff + 1 := natText_length h
  have hlog : Int.log 10 d.value = Nat.log 10 d.coeff + d.exp := by
    have hlow : 10 ^ Nat.log 10 d.coeff ≤ d.coeff := Nat.pow_log_le_self 10 h
    have hhigh : d.coeff < 10 ^ (Nat.log 10 d.coeff + 1) := Nat.lt_pow_succ_log_self (by norm_num) _
    have hlow' : (10 : ℚ) ^ Nat.log 10 d.coeff ≤ d.coeff := by exact_mod_cast hlow
    have hhigh' : (d.coeff : ℚ) < (10 : ℚ) ^ (Nat.log 10 d.coeff + 1) := by exact_mod_cast hhigh
    have hpos : 0 < d.value := by
      have hcoeff : (0 : ℚ) < d.coeff := by exact_mod_cast Nat.pos_of_ne_zero h
      unfold Decimal.value
      positivity
    apply le_antisymm
    · rw [← Int.lt_add_one_iff, ← Int.lt_zpow_iff_log_lt (by norm_num) hpos]
      push_cast
      rw [add_right_comm, zpow_add₀ (by norm_num), Decimal.value]
      gcongr
      exact_mod_cast hhigh'
    · rw [← Int.zpow_le_iff_le_log (by norm_num) hpos]
      push_cast
      rw [zpow_add₀ (by norm_num), Decimal.value]
      gcongr
      exact_mod_cast hlow'
  have hpos : 0 < d.value := by
    have hcoeff : (0 : ℚ) < d.coeff := by exact_mod_cast Nat.pos_of_ne_zero h
    unfold Decimal.value
    positivity
  have hiff := Int.zpow_le_iff_le_log (b := 10) (by norm_num) hpos (x := j)
  push_cast at hiff
  rw [hiff, hlog, hlen]
  push_cast
  omega

/-- An exponent of two digits is written alike whether two are asked for or one. -/
theorem exponentText_two {e : ℤ} : exponentText 2 e = exponentText 1 e ↔ 10 ≤ e.natAbs := by
  have hpos := natText_length_pos e.natAbs
  have htwo : 2 ≤ (natText e.natAbs).length ↔ 10 ≤ e.natAbs := by
    by_cases h : e.natAbs = 0
    · rw [h]
      decide
    · rw [natText_length h, Nat.succ_le_succ_iff, Nat.succ_le_iff, Nat.pos_iff_ne_zero, Ne,
        Nat.log_eq_zero_iff]
      omega
  rw [← htwo]
  constructor
  · intro h
    have hlen := congrArg List.length h
    simp only [exponentText, List.length_cons, List.length_append, List.length_replicate] at hlen
    omega
  · intro h
    simp only [exponentText]
    rw [Nat.sub_eq_zero_of_le h, Nat.sub_eq_zero_of_le (one_le_two.trans h)]

theorem scientific_text (width : ℕ) (d : Decimal) :
    (scientific width d).text false = (natText d.coeff).take 1 ++
      (if (natText d.coeff).drop 1 = [] then [] else 46 :: (natText d.coeff).drop 1) ++
        exponentText width ((natText d.coeff).length + d.exp - 1) := rfl

/-- Scientific layouts agree where the exponent has two digits. -/
theorem scientific_text_eq {d : Decimal} :
    (scientific 2 d).text false = (scientific 1 d).text false ↔
      10 ≤ ((natText d.coeff).length + d.exp - 1).natAbs := by
  rw [scientific_text, scientific_text, List.append_right_inj, exponentText_two]

/-- Where a layout has an exponent, its text has an `e`. -/
theorem e_mem_scientific (width : ℕ) (d : Decimal) : 101 ∈ (scientific width d).text false := by
  rw [scientific_text]
  exact List.mem_append_right _ List.mem_cons_self

theorem e_not_digit {cs : List ℕ} (h : ∀ c ∈ cs, isDigit c = true) : 101 ∉ cs := fun hmem =>
  absurd (h 101 hmem) (by decide)

theorem e_not_mem_text {whole frac : List ℕ} (hwhole : 101 ∉ whole) (hfrac : 101 ∉ frac) :
    101 ∉ (Layout.mk whole frac none).text false := by
  have hpoint : 101 ∉ if frac = [] then [] else 46 :: frac := by
    split_ifs
    · exact List.not_mem_nil
    · simpa using hfrac
  simp only [Layout.text, Option.elim_none, Bool.false_eq_true, if_false, List.nil_append,
    List.append_nil, List.mem_append, not_or]
  exact ⟨hwhole, hpoint⟩

/-- Without an exponent there is no `e`. -/
theorem e_not_mem_positional {tail : List ℕ} {d : Decimal} (htail : ∀ c ∈ tail, isDigit c = true) :
    101 ∉ (positional tail d).text false := by
  have hdigits : 101 ∉ natText d.coeff := e_not_digit fun c hc => isDigit_natText hc
  have hzeros : ∀ n, (101 : ℕ) ∉ List.replicate n 48 := fun n h =>
    absurd (List.eq_of_mem_replicate h) (by decide)
  simp only [positional]
  split_ifs
  · apply e_not_mem_text
    · decide
    · rw [List.mem_append, not_or]
      exact ⟨hzeros _, hdigits⟩
  · apply e_not_mem_text
    · exact fun h => hdigits (List.mem_of_mem_take h)
    · exact fun h => hdigits (List.mem_of_mem_drop h)
  · apply e_not_mem_text
    · rw [List.mem_append, not_or]
      exact ⟨hdigits, hzeros _⟩
    · exact e_not_digit htail

/-- The digits after the point are the same whatever stands for none. -/
theorem positional_tail (tail tail' : List ℕ) {d : Decimal} (h : d.exp < 0) :
    positional tail d = positional tail' d := by
  simp only [positional]
  split_ifs
  · rfl
  · rfl
  · omega

/-! ## Bounds -/

/-- `1`. -/
def one : Binary64 := ⟨2 ^ 52, -52, Binary64.least_lt, by norm_num, by norm_num, Or.inl le_rfl⟩

/-- `1e16`. -/
def pow16 : Binary64 :=
  ⟨5 * 10 ^ 15, 1, by norm_num, Binary64.exp_pow53_ge, Binary64.exp_pow53_le, Or.inl (by norm_num)⟩

/-- `1e21`. -/
def pow21 : Binary64 :=
  ⟨7629394531250000, 17, by norm_num, by norm_num, by norm_num, Or.inl (by norm_num)⟩

theorem value_one : one.value = 1 := by norm_num [one, Binary64.value]

theorem value_pow16 : pow16.value = 10 ^ (16 : ℤ) := by norm_num [pow16, Binary64.value]

theorem value_pow21 : pow21.value = 10 ^ (21 : ℤ) := by norm_num [pow21, Binary64.value]

section Bounds
variable {x : Binary64}

set_option maxRecDepth 100000 in
theorem one_le_shortest : 1 ≤ x.shortest.value ↔ 1 ≤ x.value := by
  have hb : one.shortest = ⟨1, 0⟩ := by decide +kernel
  have h := le_shortest_iff (b := one) (x := x) (by rw [hb, value_one]; norm_num [Decimal.value])
  rwa [value_one] at h

set_option maxRecDepth 100000 in
theorem pow16_le_shortest : 10 ^ (16 : ℤ) ≤ x.shortest.value ↔ 10 ^ (16 : ℤ) ≤ x.value := by
  have hb : pow16.shortest = ⟨1, 16⟩ := by decide +kernel
  have h := le_shortest_iff (b := pow16) (x := x) (by rw [hb, value_pow16]; norm_num [Decimal.value])
  rwa [value_pow16] at h

set_option maxRecDepth 100000 in
theorem pow21_le_shortest : 10 ^ (21 : ℤ) ≤ x.shortest.value ↔ 10 ^ (21 : ℤ) ≤ x.value := by
  have hb : pow21.shortest = ⟨1, 21⟩ := by decide +kernel
  have h := le_shortest_iff (b := pow21) (x := x) (by rw [hb, value_pow21]; norm_num [Decimal.value])
  rwa [value_pow21] at h

end Bounds

/-! ## Python and Node -/

/-- **The amounts with one text**: neither negative zero, nor between `1e-9` and `1e-4`, nor
between `1e16` and `1e21`, by their shortest decimals. -/
def Shared : Double → Prop
  | .finite neg x => neg = false ∧ (x.shortest.value < 10 ^ (-9 : ℤ) ∨
      10 ^ (-4 : ℤ) ≤ x.shortest.value ∧ x.shortest.value < 10 ^ (16 : ℤ) ∨
      10 ^ (21 : ℤ) ≤ x.shortest.value)
  | _ => False

/-- The text of an amount in a token of Python. -/
def pythonText (d : Double) : List ℕ := Python.scalarText (.float d)

section Magnitude
variable {x : Binary64}

/-- Where Python writes no exponent. -/
theorem pythonText_positional (h0 : x.shortest.coeff ≠ 0) (hlow : 10 ^ (-4 : ℤ) ≤ x.shortest.value)
    (hhigh : x.shortest.value < 10 ^ (16 : ℤ)) :
    pythonText (.finite false x) = (positional [48] x.shortest).text false := by
  rw [pow_le_value_iff h0] at hlow
  rw [← not_le, pow_le_value_iff h0] at hhigh
  simp only [pythonText, Python.scalarText, Python.floatLayout]
  rw [if_pos (by omega)]

/-- Where it writes one. -/
theorem pythonText_scientific (h0 : x.shortest.coeff ≠ 0)
    (h : x.shortest.value < 10 ^ (-4 : ℤ) ∨ 10 ^ (16 : ℤ) ≤ x.shortest.value) :
    pythonText (.finite false x) = (scientific 2 x.shortest).text false := by
  rw [← not_le, pow_le_value_iff h0, pow_le_value_iff h0] at h
  simp only [pythonText, Python.scalarText, Python.floatLayout]
  rw [if_neg (by omega)]

/-- Where JavaScript writes no exponent. -/
theorem numberText_positional (h0 : x.shortest.coeff ≠ 0) (hlow : 10 ^ (-6 : ℤ) ≤ x.shortest.value)
    (hhigh : x.shortest.value < 10 ^ (21 : ℤ)) :
    Js.numberText (.finite false x) = (positional [] x.shortest).text false := by
  rw [pow_le_value_iff h0] at hlow
  rw [← not_le, pow_le_value_iff h0] at hhigh
  simp only [Js.numberText, Js.numberLayout, Bool.false_and]
  rw [if_pos (by omega)]

/-- Where it writes one. -/
theorem numberText_scientific (h0 : x.shortest.coeff ≠ 0)
    (h : x.shortest.value < 10 ^ (-6 : ℤ) ∨ 10 ^ (21 : ℤ) ≤ x.shortest.value) :
    Js.numberText (.finite false x) = (scientific 1 x.shortest).text false := by
  rw [← not_le, pow_le_value_iff h0, pow_le_value_iff h0] at h
  simp only [Js.numberText, Js.numberLayout, Bool.false_and]
  rw [if_neg (by omega)]

theorem shared_finite : Shared (.finite false x) ↔ x.shortest.value < 10 ^ (-9 : ℤ) ∨
    10 ^ (-4 : ℤ) ≤ x.shortest.value ∧ x.shortest.value < 10 ^ (16 : ℤ) ∨
      10 ^ (21 : ℤ) ≤ x.shortest.value := by
  simp only [Shared, true_and]

/-- Whole amounts: alike below `1e16` and from `1e21` on. -/
theorem formatAmount_whole (h0 : x.shortest.coeff ≠ 0) {n : ℕ} (hx : x.value = n) (hn : n ≠ 0) :
    Node.formatAmount (.finite false x) = .ok (pythonText (.finite false x)) ↔
      Shared (.finite false x) := by
  have hwhole : Js.isInteger (.finite false x) = true :=
    Js.isInteger_value (n := n) (by rw [Double.value?, hx]; rfl)
  have hone : 1 ≤ x.shortest.value := by
    rw [one_le_shortest, hx]
    exact_mod_cast Nat.one_le_iff_ne_zero.mpr hn
  have hlow : (10 : ℚ) ^ (-4 : ℤ) ≤ x.shortest.value := le_trans (by norm_num) hone
  have hnine : ¬ x.shortest.value < 10 ^ (-9 : ℤ) := not_lt.mpr (le_trans (by norm_num) hone)
  have hfloor : ⌊x.value⌋₊ = n := by rw [hx, Nat.floor_natCast]
  rw [shared_finite, or_iff_right hnine, and_iff_right hlow]
  simp only [Node.formatAmount, hwhole, if_true, hfloor, Bool.false_and, Bool.false_eq_true, if_false,
    List.nil_append, Except.ok.injEq]
  by_cases h16 : x.shortest.value < 10 ^ (16 : ℤ)
  · refine iff_of_true ?_ (Or.inl h16)
    have hx16 : x.value < 10 ^ (16 : ℤ) := by rwa [← not_le, ← pow16_le_shortest, not_le]
    have hn16 : n < 10 ^ 16 := by
      rw [hx] at hx16
      exact_mod_cast hx16
    obtain ⟨c, e, hd, hval, hzero⟩ := shortest_sixteen hx hn16
    rw [if_pos (hx16.trans (by norm_num)), pythonText_positional h0 hlow h16, hd,
      positional_whole [48] hzero, hval]
    simp [Layout.text]
  · rw [not_lt] at h16
    rw [or_iff_right (not_lt.mpr h16), pythonText_scientific h0 (Or.inr h16)]
    by_cases h21 : 10 ^ (21 : ℤ) ≤ x.shortest.value
    · refine iff_of_true ?_ h21
      have hx21 := not_lt.mpr (pow21_le_shortest.mp h21)
      rw [if_neg (by exact_mod_cast hx21), numberText_scientific h0 (Or.inr h21), eq_comm,
        scientific_text_eq]
      rw [pow_le_value_iff h0] at h21
      omega
    · refine iff_of_false ?_ h21
      have hx21 := not_le.mp (mt pow21_le_shortest.mpr h21)
      rw [if_pos (by exact_mod_cast hx21)]
      intro heq
      have hmem := heq ▸ e_mem_scientific 2 x.shortest
      rw [List.mem_append] at hmem
      rcases hmem with hdigit | hpoint
      · exact e_not_digit (fun c hc => isDigit_natText hc) hdigit
      · simp at hpoint

/-- Amounts that are not whole: alike from `1e-4` on and below `1e-9`. -/
theorem formatAmount_fraction (h0 : x.shortest.coeff ≠ 0) (hx : x.value.den ≠ 1) :
    Node.formatAmount (.finite false x) = .ok (pythonText (.finite false x)) ↔
      Shared (.finite false x) := by
  have hwhole : Js.isInteger (.finite false x) = false := by
    simp [Js.isInteger, Double.value?, hx]
  have hsmall : x.value < 2 ^ 53 := by
    by_contra h
    exact hx (den_of_le (not_lt.mp h))
  have h16 : x.shortest.value < 10 ^ (16 : ℤ) := by
    rw [← not_le, pow16_le_shortest, not_le]
    exact hsmall.trans (by norm_num)
  have h21 : x.shortest.value < 10 ^ (21 : ℤ) := h16.trans (by norm_num)
  have hexp : x.shortest.exp < 0 := by
    by_contra h
    obtain ⟨e, he⟩ := Int.eq_ofNat_of_zero_le (not_lt.mp h)
    refine hx (den_of_ofRat (n := x.shortest.coeff * 10 ^ e) ?_)
    rw [← ofRat_shortest x, Decimal.value, he]
    push_cast
    rfl
  rw [shared_finite, or_iff_left (not_le.mpr h21), and_iff_left h16]
  simp only [Node.formatAmount, hwhole, Bool.false_eq_true, if_false, Except.ok.injEq]
  by_cases h4 : 10 ^ (-4 : ℤ) ≤ x.shortest.value
  · refine iff_of_true ?_ (Or.inr h4)
    rw [numberText_positional h0 (le_trans (by norm_num) h4) h21, pythonText_positional h0 h4 h16,
      positional_tail [] [48] hexp]
  · rw [or_iff_left h4, pythonText_scientific h0 (Or.inl (not_le.mp h4))]
    by_cases h6 : 10 ^ (-6 : ℤ) ≤ x.shortest.value
    · refine iff_of_false ?_ (not_lt.mpr (le_trans (by norm_num) h6))
      rw [numberText_positional h0 h6 h21]
      intro heq
      exact e_not_mem_positional (by simp) (heq ▸ e_mem_scientific 2 x.shortest)
    · rw [numberText_scientific h0 (Or.inl (not_le.mp h6)), eq_comm, scientific_text_eq, ← not_le,
        pow_le_value_iff h0]
      rw [pow_le_value_iff h0] at h6
      omega

end Magnitude

set_option maxRecDepth 100000 in
/-- **Node and Python write the shared amounts the same, and no others.** -/
theorem formatAmount_eq_iff {d : Double} (hd : Python.nonNegative d = true) :
    Node.formatAmount d = .ok (pythonText d) ↔ Shared d := by
  cases d with
  | inf neg => simp [Python.nonNegative, Double.value?] at hd
  | nan => simp [Python.nonNegative, Double.value?] at hd
  | finite neg x =>
      by_cases h0 : x.shortest.coeff = 0
      · have hx : x = zero := by
          have hread := ofRat_shortest x
          rw [shortest_eq_zero h0, show Decimal.value ⟨0, 0⟩ = 0 by norm_num [Decimal.value],
            ofRat_zero] at hread
          exact (Option.some.inj hread).symm
        subst hx
        cases neg with
        | false =>
            refine iff_of_true (by decide +kernel) ⟨rfl, Or.inl ?_⟩
            rw [shortest_eq_zero h0]
            norm_num [Decimal.value]
        | true => exact iff_of_false (by decide +kernel) fun h => absurd h.1 (by decide)
      · have hsig : x.sig ≠ 0 := by
          intro hzero
          rw [shortest, if_pos hzero] at h0
          exact h0 rfl
        have hneg : neg = false := by
          cases neg with
          | false => rfl
          | true =>
              have hpos := value_pos hsig
              simp [Python.nonNegative, Double.value?] at hd
              linarith
        subst hneg
        by_cases hx : x.value.den = 1
        · have hnum := Rat.num_nonneg.mpr x.value_nonneg
          have hval : x.value = (x.value.num.toNat : ℕ) := by
            conv_lhs => rw [← Rat.coe_int_num_of_den_eq_one hx]
            exact_mod_cast (Int.toNat_of_nonneg hnum).symm
          refine formatAmount_whole h0 hval fun hzero => ?_
          rw [hzero, Nat.cast_zero] at hval
          exact (value_pos hsig).ne' hval
        · exact formatAmount_fraction h0 hx

/-! ## All signers -/

/-- TypeScript writes what Node does. -/
theorem amountText_eq {d : Double} {text : List ℕ} (h : Node.formatAmount d = .ok text) :
    TypeScript.amountText d = text := by
  cases d with
  | inf neg => cases h
  | nan => cases h
  | finite neg x =>
      rw [TypeScript.amountText, TypeScript.toFixed]
      simp only [Node.formatAmount] at h
      by_cases hwhole : Js.isInteger (.finite neg x) = true
      · rw [if_pos hwhole] at h ⊢
        exact Except.ok.inj h
      · rw [if_neg hwhole] at h ⊢
        exact Except.ok.inj h

/-- **Every signer writes this text** for the amount: Python, Node, and TypeScript in every
payload without pins. -/
structure WrittenByAll (d : Double) (text : List ℕ) : Prop where
  python : pythonText d = text
  node : Node.formatAmount d = .ok text
  typeScript : ∀ c c' : TypeScript.CapabilityClaims, c.constraints.maxAmountUsd = some d →
    c.constraints.allowedParams = [] →
    TypeScript.wireJsonToClaims (.obj (TypeScript.claimsToWireJson c)) = .ok c' →
    TypeScript.payloadText c = .ok (c.wire.text (c.wire.constraintsText text))

/-- **The signers write one text for exactly the shared amounts.** -/
theorem amount_text_iff (d : Double) (hd : Python.nonNegative d = true) :
    (∃ text, WrittenByAll d text) ↔ Shared d := by
  rw [← formatAmount_eq_iff hd]
  constructor
  · intro h
    obtain ⟨text, h⟩ := h
    rw [h.node, h.python]
  · intro h
    refine ⟨pythonText d, rfl, h, fun c c' hamount hpins haccepted => ?_⟩
    rw [TypeScript.payloadText_unpinned hamount hpins haccepted, amountText_eq h]

/-! ## Ten quadrillion -/

set_option maxRecDepth 100000 in
/-- Python writes `1e16` with an exponent, Node digit by digit. -/
theorem amount_texts_differ :
    Python.nonNegative (.finite false pow16) = true ∧
      pythonText (.finite false pow16) = Json.codes "1e+16" ∧
      Node.formatAmount (.finite false pow16) = .ok (Json.codes "10000000000000000.0") ∧
      ¬ ∃ text, WrittenByAll (.finite false pow16) text := by
  have hpython : pythonText (.finite false pow16) = Json.codes "1e+16" := by decide +kernel
  have hnode : Node.formatAmount (.finite false pow16) = .ok (Json.codes "10000000000000000.0") := by
    decide +kernel
  refine ⟨by decide +kernel, hpython, hnode, ?_⟩
  rintro ⟨text, h⟩
  have heq := Except.ok.inj (hnode.symm.trans h.node)
  rw [← h.python, hpython] at heq
  exact absurd heq (by decide)

set_option maxRecDepth 100000 in
theorem amount_text_iff_one : ∃ text, WrittenByAll (.finite false one) text :=
  (amount_text_iff (.finite false one) (by decide +kernel)).mpr
    ⟨rfl, Or.inr (Or.inl ⟨by decide +kernel, by decide +kernel⟩)⟩

end SwarmAuth.Interop
