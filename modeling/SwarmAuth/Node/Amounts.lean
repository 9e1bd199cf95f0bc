import SwarmAuth.Js.Value
import SwarmAuth.Lib.Canonical

/-!
# Amounts in decimal

The Node trackers keep amounts as decimal texts, and add and compare them in integers over a
common scale.

## Main definitions

* `decimalParts`, `addAmounts`, `amountExceeds` — the functions.
* `decimalParts_text` — the parts of a text are its decimal.
* `addAmounts_text`, `amountExceeds_text` — sums and comparisons are exact.
-/
namespace SwarmAuth.Node

/-! ## The functions -/

/-- `BigInt(text)` and `Number(text)` of an integer's text; none where it has no other. -/
def readInteger : List ℕ → Option ℤ
  | [] => some 0
  | 43 :: ds => (readDigits ds).map fun n : ℕ => (n : ℤ)
  | 45 :: ds => (readDigits ds).map fun n : ℕ => -(n : ℤ)
  | ds => (readDigits ds).map fun n : ℕ => (n : ℤ)

/-- `decimalParts`: the digits and how many of them follow the point; none where it throws. -/
def decimalParts (text : List ℕ) : Option (ℤ × ℤ) := do
  let parts := text.splitOnP fun c => c = 101 || c = 69
  let mantissa := parts.headD []
  let power := parts[1]?.getD [48]
  let halves := mantissa.splitOn 46
  let whole := halves.headD []
  let fraction := halves[1]?.getD []
  let digits ← readInteger (whole ++ fraction)
  let exponent ← readInteger power
  some (digits, fraction.length - exponent)

/-- `total.toString()`. -/
def integerText (n : ℤ) : List ℕ := (if n < 0 then [45] else []) ++ natText n.natAbs

/-- `text.padStart(width, "0")`. -/
def padStart (width : ℕ) (text : List ℕ) : List ℕ :=
  List.replicate (width - text.length) 48 ++ text

/-- `text.replace(/0+$/, "").replace(/\.$/, "")`. -/
def trimFraction (text : List ℕ) : List ℕ :=
  let text := text.rdropWhile fun c => c = 48
  if text.getLast? = some 46 then text.dropLast else text

/-- `addAmounts`. -/
def addAmounts (left right : List ℕ) : Option (List ℕ) := do
  let (a, aScale) ← decimalParts left
  let (b, bScale) ← decimalParts right
  let scale := (max (max aScale bScale) 0).toNat
  let total := a * 10 ^ (scale - aScale).toNat + b * 10 ^ (scale - bScale).toNat
  let digits := padStart (scale + 1) (integerText total)
  if scale = 0 then some digits
  else
    let point := digits.length - scale
    some (trimFraction (digits.take point ++ 46 :: digits.drop point))

/-- `amountExceeds`. -/
def amountExceeds (left right : List ℕ) : Option Bool := do
  let (a, aScale) ← decimalParts left
  let (b, bScale) ← decimalParts right
  let scale := max aScale bScale
  some (b * 10 ^ (scale - bScale).toNat < a * 10 ^ (scale - aScale).toNat)

/-! ## Parts of a text -/

theorem readInteger_digits {ds : List ℕ} (h : ∀ c ∈ ds, isDigit c = true) (hne : ds ≠ []) :
    readInteger ds = some (digitsValue ds : ℤ) := by
  obtain ⟨c, cs, rfl⟩ := List.exists_cons_of_ne_nil hne
  have hc := isDigit_iff.mp (h c List.mem_cons_self)
  rw [readInteger.eq_4 _ (by simp) (by rintro ds heq; simp at heq; omega)
    (by rintro ds heq; simp at heq; omega), readDigits_of h hne, Option.map_some]

theorem readInteger_exponent (width : ℕ) (e : ℤ) :
    readInteger (exponentText width e).tail = some e := by
  have hread := readExponent_text width e
  rw [← hread, exponentText]
  split_ifs <;> rfl

/-- The digits of a layout, with their point. -/
def mantissaText (l : Layout) : List ℕ := l.whole ++ if l.frac = [] then [] else 46 :: l.frac

theorem splitOn_mantissaText {l : Layout} (h : l.Valid) :
    (mantissaText l).splitOn 46 = l.whole :: if l.frac = [] then [] else [l.frac] := by
  have hpoint : ∀ {ds : List ℕ}, (∀ c ∈ ds, isDigit c = true) → 46 ∉ ds := by
    intro ds hds hmem
    exact absurd (hds 46 hmem) (by decide)
  unfold mantissaText
  split_ifs with hf
  · rw [List.append_nil, List.splitOn_eq_singleton (hpoint h.whole_digit)]
  · rw [List.splitOn_append_cons_self_of_not_mem (hpoint h.whole_digit),
      List.splitOn_eq_singleton (hpoint h.frac_digit)]

theorem splitOnP_text {l : Layout} (h : l.Valid) :
    (l.text false).splitOnP (fun c => c = 101 || c = 69) =
      mantissaText l :: l.exponent.elim [] fun e => [(exponentText e.1 e.2).tail] := by
  have hdigits : ∀ {ds : List ℕ}, (∀ c ∈ ds, isDigit c = true) →
      ∀ c ∈ ds, (decide (c = 101) || decide (c = 69)) = false := by
    intro ds hds c hc
    have := isDigit_iff.mp (hds c hc)
    simp
    omega
  have hmantissa : ∀ c ∈ mantissaText l, (decide (c = 101) || decide (c = 69)) = false := by
    intro c hc
    rcases List.mem_append.mp hc with hc | hc
    · exact hdigits h.whole_digit c hc
    · split_ifs at hc
      · simp at hc
      · rcases List.mem_cons.mp hc with rfl | hc
        · rfl
        · exact hdigits h.frac_digit c hc
  have htext : l.text false =
      mantissaText l ++ l.exponent.elim [] fun e => exponentText e.1 e.2 := by
    simp [Layout.text, mantissaText]
  rw [htext]
  cases l.exponent with
  | none => rw [Option.elim_none, List.append_nil, List.splitOnP_eq_singleton hmantissa, Option.elim_none]
  | some e =>
      have hrest : ∀ c ∈ (exponentText e.1 e.2).tail,
          (decide (c = 101) || decide (c = 69)) = false := by
        simp only [exponentText, List.tail_cons, List.mem_cons, List.mem_append]
        rintro c (rfl | hc | hc)
        · split_ifs <;> rfl
        · rw [List.eq_of_mem_replicate hc]
          rfl
        · exact hdigits (fun d hd => isDigit_natText hd) c hc
      have hcons : exponentText e.1 e.2 = 101 :: (exponentText e.1 e.2).tail := rfl
      rw [Option.elim_some, Option.elim_some, hcons,
        List.splitOnP_append_cons_of_forall_mem hmantissa 101 rfl,
        List.splitOnP_eq_singleton hrest, List.tail_cons]

/-- **The parts of a text are its decimal.** -/
theorem decimalParts_text {l : Layout} (h : l.Valid) :
    decimalParts (l.text false) = some ((l.decimal.coeff : ℤ), -l.decimal.exp) := by
  have hfraction : (((mantissaText l).splitOn 46)[1]?).getD [] = l.frac := by
    rw [splitOn_mantissaText h]
    split_ifs with hf
    · simp [hf]
    · rfl
  have hwhole : ((mantissaText l).splitOn 46).headD [] = l.whole := by
    rw [splitOn_mantissaText h]
    rfl
  have hdigits : readInteger (l.whole ++ l.frac) = some (digitsValue (l.whole ++ l.frac) : ℤ) := by
    refine readInteger_digits ?_ (by simp [h.whole_ne])
    intro c hc
    exact (List.mem_append.mp hc).elim (h.whole_digit c) (h.frac_digit c)
  have hpower : readInteger (((mantissaText l ::
      l.exponent.elim [] fun e => [(exponentText e.1 e.2).tail])[1]?).getD [48]) =
        some (l.exponent.elim 0 Prod.snd) := by
    cases l.exponent with
    | none => rfl
    | some e => exact readInteger_exponent e.1 e.2
  simp only [decimalParts, splitOnP_text h, List.headD_cons, hfraction, hwhole, hdigits, hpower,
    Option.bind_eq_bind, Option.bind_some, Layout.decimal, neg_sub]

/-! ## Sums -/

/-- The layout of a sum: its digits over the finer scale, without the zeros that end them. -/
def sumLayout (l m : Layout) : Layout :=
  let scale := max (max (-l.decimal.exp) (-m.decimal.exp)) 0
  (positional [] ⟨l.decimal.coeff * 10 ^ (scale + l.decimal.exp).toNat +
    m.decimal.coeff * 10 ^ (scale + m.decimal.exp).toNat, -scale⟩).stripZeros

theorem sumLayout_canonical (l m : Layout) : (sumLayout l m).Canonical :=
  canonical_positional fun _ => by simp

theorem value_sumLayout (l m : Layout) :
    (sumLayout l m).decimal.value = l.decimal.value + m.decimal.value := by
  have hl : -max (max (-l.decimal.exp) (-m.decimal.exp)) 0 ≤ l.decimal.exp := by omega
  have hm : -max (max (-l.decimal.exp) (-m.decimal.exp)) 0 ≤ m.decimal.exp := by omega
  have hl' := Decimal.value_rescale l.decimal.coeff hl
  have hm' := Decimal.value_rescale m.decimal.coeff hm
  rw [sub_neg_eq_add, add_comm l.decimal.exp] at hl'
  rw [sub_neg_eq_add, add_comm m.decimal.exp] at hm'
  rw [sumLayout, (Layout.stripZeros_decimal _).1, value_positional [] _ rfl, Decimal.value,
    Nat.cast_add, add_mul, hl', hm', Decimal.value, Decimal.value]

theorem rdropWhile_point (w f : List ℕ) :
    (w ++ 46 :: f).rdropWhile (fun c => c = 48) = w ++ 46 :: f.rdropWhile fun c => c = 48 := by
  induction f using List.reverseRecOn with
  | nil => rw [List.rdropWhile_concat_neg _ _ _ (by decide), List.rdropWhile_nil]
  | append_singleton f c ih =>
      have happend : w ++ 46 :: (f ++ [c]) = (w ++ 46 :: f) ++ [c] := by simp
      by_cases hc : c = 48
      · rw [happend, List.rdropWhile_concat_pos _ _ _ (by simpa using hc), ih,
          List.rdropWhile_concat_pos _ _ _ (by simpa using hc)]
      · rw [happend, List.rdropWhile_concat_neg _ _ _ (by simpa using hc),
          List.rdropWhile_concat_neg _ _ _ (by simpa using hc), happend]

/-- A trimmed text is that of the layout without the zeros that end it. -/
theorem trimFraction_point {w f : List ℕ} (hf : ∀ c ∈ f, isDigit c = true) :
    trimFraction (w ++ 46 :: f) = (Layout.mk w f none).stripZeros.text false := by
  have hpoint : 46 ∉ f.rdropWhile fun c => c = 48 := by
    intro hmem
    exact absurd (hf 46 ((List.rdropWhile_prefix _ _).subset hmem)) (by decide)
  have htext : (Layout.mk w f none).stripZeros.text false =
      w ++ if (f.rdropWhile fun c => c = 48) = [] then []
        else 46 :: f.rdropWhile fun c => c = 48 := by
    simp [Layout.text, Layout.stripZeros]
  rw [htext, trimFraction, rdropWhile_point]
  generalize (f.rdropWhile fun c => c = 48) = kept at hpoint
  rcases List.eq_nil_or_concat kept with rfl | ⟨init, c, rfl⟩
  · simp
  · have hc : c ≠ 46 := by
      rintro rfl
      exact hpoint (by simp)
    have hlast : (w ++ 46 :: init.concat c).getLast? = some c := by
      rw [List.concat_eq_append, ← List.cons_append, ← List.append_assoc, List.getLast?_concat]
    simp only [hlast, Option.some.injEq, if_neg hc]
    simp

/-- Digits over a scale are laid out by position. -/
theorem padStart_positional (n : ℕ) {scale : ℕ} (hscale : scale ≠ 0) :
    positional [] ⟨n, -scale⟩ =
      ⟨(padStart (scale + 1) (natText n)).take ((padStart (scale + 1) (natText n)).length - scale),
        (padStart (scale + 1) (natText n)).drop ((padStart (scale + 1) (natText n)).length - scale),
        none⟩ := by
  have hpos := natText_length_pos n
  have hlen : (padStart (scale + 1) (natText n)).length = max (scale + 1) (natText n).length := by
    rw [padStart, List.length_append, List.length_replicate]
    omega
  rw [hlen]
  simp only [positional]
  by_cases hlow : (natText n).length ≤ scale
  · have hzeros : scale + 1 - (natText n).length = (scale - (natText n).length) + 1 := by omega
    have hpoint : (-((natText n).length + -(scale : ℤ))).toNat = scale - (natText n).length := by omega
    rw [if_pos (by omega), max_eq_left (by omega), Nat.add_sub_cancel_left, padStart, hzeros, hpoint,
      List.replicate_succ]
    rfl
  · have hpad : padStart (scale + 1) (natText n) = natText n := by
      rw [padStart, Nat.sub_eq_zero_of_le (by omega), List.replicate_zero, List.nil_append]
    have hpoint : ((natText n).length + -(scale : ℤ)).toNat = (natText n).length - scale := by omega
    rw [if_neg (by omega), if_pos (by omega), hpad, hpoint, max_eq_right (by omega)]

/-- **Sums are exact**, and written canonically. -/
theorem addAmounts_text {l m : Layout} (hl : l.Valid) (hm : m.Valid) :
    addAmounts (l.text false) (m.text false) = some ((sumLayout l m).text false) := by
  obtain ⟨scale, hscale⟩ : ∃ scale : ℕ, max (max (-l.decimal.exp) (-m.decimal.exp)) 0 = scale :=
    ⟨_, (Int.toNat_of_nonneg (le_max_right _ _)).symm⟩
  have htotal : ((l.decimal.coeff : ℤ) * 10 ^ (scale + l.decimal.exp).toNat +
      (m.decimal.coeff : ℤ) * 10 ^ (scale + m.decimal.exp).toNat) =
        ((l.decimal.coeff * 10 ^ (scale + l.decimal.exp).toNat +
          m.decimal.coeff * 10 ^ (scale + m.decimal.exp).toNat : ℕ) : ℤ) := by
    push_cast
    rfl
  have hdigits : ∀ n : ℕ, integerText n = natText n := by
    intro n
    rw [integerText, if_neg (by omega), List.nil_append, Int.natAbs_natCast]
  simp only [addAmounts, decimalParts_text hl, decimalParts_text hm, Option.bind_eq_bind,
    Option.bind_some, hscale, Int.toNat_natCast, sub_neg_eq_add, htotal, hdigits, sumLayout]
  generalize l.decimal.coeff * 10 ^ (scale + l.decimal.exp).toNat +
    m.decimal.coeff * 10 ^ (scale + m.decimal.exp).toNat = n
  by_cases h0 : scale = 0
  · have hpos := natText_length_pos n
    rw [if_pos h0, h0, padStart, Nat.sub_eq_zero_of_le (by omega)]
    simp [positional, Layout.stripZeros, Layout.text, hpos.ne']
  · rw [if_neg h0, trimFraction_point, padStart_positional n h0]
    intro c hc
    rcases List.mem_append.mp (List.mem_of_mem_drop hc) with hc | hc
    · rw [List.eq_of_mem_replicate hc]
      rfl
    · exact isDigit_natText hc

/-- **Comparisons are exact.** -/
theorem amountExceeds_text {l m : Layout} (hl : l.Valid) (hm : m.Valid) :
    amountExceeds (l.text false) (m.text false) = some (decide (m.decimal.value < l.decimal.value)) := by
  set scale := max (-l.decimal.exp) (-m.decimal.exp) with hscale
  have hl' := Decimal.value_rescale l.decimal.coeff (show -scale ≤ l.decimal.exp by omega)
  have hm' := Decimal.value_rescale m.decimal.coeff (show -scale ≤ m.decimal.exp by omega)
  rw [sub_neg_eq_add, add_comm l.decimal.exp] at hl'
  rw [sub_neg_eq_add, add_comm m.decimal.exp] at hm'
  have hpos : (0 : ℚ) < (10 : ℚ) ^ (-scale) := by positivity
  simp only [amountExceeds, decimalParts_text hl, decimalParts_text hm, Option.bind_eq_bind,
    Option.bind_some, ← hscale, sub_neg_eq_add]
  congr 1
  rw [decide_eq_decide, Decimal.value, Decimal.value, ← hl', ← hm', mul_lt_mul_iff_of_pos_right hpos]
  norm_cast

end SwarmAuth.Node
