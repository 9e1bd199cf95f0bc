import SwarmAuth.Lib.Binary64
import Mathlib.Data.Nat.Digits.Lemmas
import Mathlib.Data.List.DropRight

/-!
# JSON numerals

The number grammar of JSON over character codes, and the ways programs write a
decimal in it: all digits, a point among or before them, or one digit with an
exponent. A numeral is its sign, its decimal and whether it has neither a point
nor an exponent, which some dialects take for the type of the number.

## Main definitions

* `readNumeral` — reading.
* `natText`, `Layout.text` — writing.
* `readNumeral_text` — what is written is read back, with the decimal's value.
-/
namespace SwarmAuth

/-- A numeral: sign, magnitude, and whether it is written as an integer. -/
structure Numeral where
  neg : Bool
  mag : Decimal
  integral : Bool
  deriving DecidableEq, Repr

/-! ## Reading -/

/-- An ASCII digit. -/
def isDigit (c : ℕ) : Bool := 48 ≤ c && c ≤ 57

/-- The number a digit text denotes. -/
def digitsValue (cs : List ℕ) : ℕ := cs.foldl (fun n c => 10 * n + (c - 48)) 0

/-- A leading minus sign, and the rest. -/
def readSign : List ℕ → Bool × List ℕ
  | 45 :: cs => (true, cs)
  | cs => (false, cs)

/-- Digits without a leading zero, and the rest. -/
def readWhole (cs : List ℕ) : Option (List ℕ × List ℕ) :=
  let ds := cs.takeWhile isDigit
  if ds = [] ∨ ds.head? = some 48 ∧ ds ≠ [48] then none else some (ds, cs.dropWhile isDigit)

/-- The digits after a point, none without one, and the rest. -/
def readFraction : List ℕ → Option (List ℕ × List ℕ)
  | 46 :: cs =>
      let ds := cs.takeWhile isDigit
      if ds = [] then none else some (ds, cs.dropWhile isDigit)
  | cs => some ([], cs)

/-- A text of digits only, at least one. -/
def readDigits (cs : List ℕ) : Option ℕ :=
  if cs ≠ [] ∧ cs.all isDigit then some (digitsValue cs) else none

/-- The exponent part, up to the end of the text. -/
def readExponent : List ℕ → Option ℤ
  | [] => some 0
  | c :: cs =>
      if c = 101 ∨ c = 69 then
        match cs with
        | 43 :: ds => (readDigits ds).map fun n : ℕ => (n : ℤ)
        | 45 :: ds => (readDigits ds).map fun n : ℕ => -(n : ℤ)
        | ds => (readDigits ds).map fun n : ℕ => (n : ℤ)
      else none

/-- A number of the JSON grammar. -/
def readNumeral (text : List ℕ) : Option Numeral := do
  let (neg, cs) := readSign text
  let (whole, cs) ← readWhole cs
  let (frac, cs) ← readFraction cs
  let e ← readExponent cs
  some ⟨neg, ⟨digitsValue (whole ++ frac), e - frac.length⟩, frac = [] ∧ cs = []⟩

/-! ## Writing -/

/-- The digits of a natural number. -/
def natText (n : ℕ) : List ℕ :=
  if n = 0 then [48] else (Nat.digits 10 n).reverse.map (48 + ·)

/-- The exponent part: a sign and at least `width` digits. -/
def exponentText (width : ℕ) (e : ℤ) : List ℕ :=
  let ds := natText e.natAbs
  101 :: (if e < 0 then 45 else 43) :: (List.replicate (width - ds.length) 48 ++ ds)

/-- How a decimal is laid out: the digits before the point, those after it, and an
exponent of some least width. -/
structure Layout where
  whole : List ℕ
  frac : List ℕ
  exponent : Option (ℕ × ℤ)
  deriving DecidableEq

/-- The text of a layout. -/
def Layout.text (neg : Bool) (l : Layout) : List ℕ :=
  (if neg then [45] else []) ++ l.whole ++ (if l.frac = [] then [] else 46 :: l.frac) ++
    l.exponent.elim [] fun e => exponentText e.1 e.2

/-- Zeros before, a point within, or zeros after the digits of a decimal; `tail` is
what follows the point of a whole number. -/
def positional (tail : List ℕ) (d : Decimal) : Layout :=
  let ds := natText d.coeff
  let point := ds.length + d.exp
  if point ≤ 0 then ⟨[48], List.replicate (-point).toNat 48 ++ ds, none⟩
  else if point < ds.length then ⟨ds.take point.toNat, ds.drop point.toNat, none⟩
  else ⟨ds ++ List.replicate (point - ds.length).toNat 48, tail, none⟩

/-- One digit, the others after a point, and an exponent. -/
def scientific (width : ℕ) (d : Decimal) : Layout :=
  let ds := natText d.coeff
  ⟨ds.take 1, ds.drop 1, some (width, ds.length + d.exp - 1)⟩

/-! ## What is written is read back -/

theorem isDigit_iff {c : ℕ} : isDigit c = true ↔ 48 ≤ c ∧ c ≤ 57 := by
  simp [isDigit]

theorem digitsValue_append (a b : List ℕ) :
    digitsValue (a ++ b) = digitsValue a * 10 ^ b.length + digitsValue b := by
  induction b using List.reverseRecOn with
  | nil => simp [digitsValue]
  | append_singleton b c ih =>
      have hstep : ∀ l : List ℕ, digitsValue (l ++ [c]) = 10 * digitsValue l + (c - 48) := by
        intro l
        simp [digitsValue]
      rw [← List.append_assoc, hstep, ih, hstep, List.length_append, List.length_singleton, pow_succ]
      ring

theorem digitsValue_replicate (n : ℕ) : digitsValue (List.replicate n 48) = 0 := by
  induction n with
  | zero => rfl
  | succ n ih => rw [List.replicate_succ', digitsValue_append, ih]; rfl

theorem digitsValue_natText (n : ℕ) : digitsValue (natText n) = n := by
  have hrev : ∀ ds : List ℕ, digitsValue (ds.reverse.map (48 + ·)) = Nat.ofDigits 10 ds := by
    intro ds
    induction ds with
    | nil => rfl
    | cons d ds ih =>
        rw [List.reverse_cons, List.map_append, digitsValue_append, ih, Nat.ofDigits_cons]
        simp [digitsValue]
        ring
  rw [natText]
  split_ifs with h
  · rw [h]; rfl
  · rw [hrev, Nat.ofDigits_digits]

theorem isDigit_natText {n c : ℕ} (h : c ∈ natText n) : isDigit c = true := by
  rw [natText] at h
  split_ifs at h
  · obtain rfl : c = 48 := by simpa using h
    rfl
  · obtain ⟨d, hd, rfl⟩ := List.mem_map.mp h
    have := Nat.digits_lt_base (by norm_num) (List.mem_reverse.mp hd)
    rw [isDigit_iff]
    omega

theorem natText_ne_nil (n : ℕ) : natText n ≠ [] := by
  rw [natText]
  split_ifs with h
  · simp
  · simp [Nat.digits_ne_nil_iff_ne_zero.mpr h]

theorem natText_length_pos (n : ℕ) : 0 < (natText n).length :=
  List.length_pos_of_ne_nil (natText_ne_nil n)

theorem natText_length {n : ℕ} (h : n ≠ 0) : (natText n).length = Nat.log 10 n + 1 := by
  rw [natText, if_neg h, List.length_map, List.length_reverse, Nat.length_digits 10 n (by norm_num) h]

theorem natText_length_le {n k : ℕ} (hk : 0 < k) (h : n < 10 ^ k) : (natText n).length ≤ k := by
  by_cases h0 : n = 0
  · rw [h0]
    exact hk
  · rw [natText_length h0]
    exact Nat.log_lt_of_lt_pow h0 h

/-- No number but zero is written with a leading zero. -/
theorem head_natText {n : ℕ} (h : (natText n).head? = some 48) : n = 0 := by
  by_contra hn
  rw [natText, if_neg hn, List.head?_map, List.head?_reverse,
    List.getLast?_eq_some_getLast (Nat.digits_ne_nil_iff_ne_zero.mpr hn)] at h
  simp only [Option.map_some, Option.some.injEq] at h
  have := Nat.getLast_digit_ne_zero 10 hn
  omega

/-- A layout the grammar admits. -/
structure Layout.Valid (l : Layout) : Prop where
  whole_digit : ∀ c ∈ l.whole, isDigit c = true
  whole_ne : l.whole ≠ []
  no_leading_zero : l.whole.head? = some 48 → l.whole = [48]
  frac_digit : ∀ c ∈ l.frac, isDigit c = true

/-- A text that does not continue a run of digits. -/
def StopsDigits (cs : List ℕ) : Prop := ∀ c ∈ cs.head?, isDigit c = false

theorem takeWhile_digits {ds cs : List ℕ} (hds : ∀ c ∈ ds, isDigit c = true) (hcs : StopsDigits cs) :
    (ds ++ cs).takeWhile isDigit = ds ∧ (ds ++ cs).dropWhile isDigit = cs := by
  rw [List.takeWhile_append_of_pos hds, List.dropWhile_append_of_pos hds]
  cases cs with
  | nil => simp
  | cons c cs =>
      have hc : isDigit c = false := hcs c rfl
      simp [hc]

theorem readDigits_of {cs : List ℕ} (h : ∀ c ∈ cs, isDigit c = true) (hne : cs ≠ []) :
    readDigits cs = some (digitsValue cs) := by
  rw [readDigits, if_pos ⟨hne, by simpa using h⟩]

theorem readExponent_text (width : ℕ) (e : ℤ) :
    readExponent (exponentText width e) = some e := by
  have hdigits : ∀ c ∈ List.replicate (width - (natText e.natAbs).length) 48 ++ natText e.natAbs,
      isDigit c = true := by
    intro c hc
    rcases List.mem_append.mp hc with h | h
    · rw [List.eq_of_mem_replicate h]; rfl
    · exact isDigit_natText h
  have hne : List.replicate (width - (natText e.natAbs).length) 48 ++ natText e.natAbs ≠ [] := by
    simp [natText_ne_nil]
  have hread := readDigits_of hdigits hne
  rw [digitsValue_append, digitsValue_replicate, digitsValue_natText, zero_mul, zero_add] at hread
  have hminus : ∀ ds, readExponent (101 :: 45 :: ds) = (readDigits ds).map fun n : ℕ => -(n : ℤ) :=
    fun _ => rfl
  have hplus : ∀ ds, readExponent (101 :: 43 :: ds) = (readDigits ds).map fun n : ℕ => (n : ℤ) :=
    fun _ => rfl
  simp only [exponentText]
  by_cases he : e < 0
  · rw [if_pos he, hminus, hread, Option.map_some]
    congr 1
    omega
  · rw [if_neg he, hplus, hread, Option.map_some]
    congr 1
    omega

theorem stopsDigits_exponent (e : Option (ℕ × ℤ)) :
    StopsDigits (e.elim [] fun e => exponentText e.1 e.2) := by
  rintro c hc
  cases e with
  | none => simp at hc
  | some e =>
      obtain rfl : 101 = c := by simpa [exponentText] using hc
      rfl

theorem readFraction_text {frac : List ℕ} (h : ∀ c ∈ frac, isDigit c = true)
    (e : Option (ℕ × ℤ)) :
    readFraction ((if frac = [] then [] else 46 :: frac) ++ e.elim [] fun e => exponentText e.1 e.2) =
      some (frac, e.elim [] fun e => exponentText e.1 e.2) := by
  split_ifs with hf
  · subst hf
    cases e with
    | none => rfl
    | some e => rfl
  · obtain ⟨htake, hdrop⟩ := takeWhile_digits h (stopsDigits_exponent e)
    rw [List.cons_append, readFraction]
    simp only [htake, hdrop, if_neg hf]

theorem readSign_text (neg : Bool) (cs : List ℕ) (h : ∀ c ∈ cs.head?, isDigit c = true) :
    readSign ((if neg then [45] else []) ++ cs) = (neg, cs) := by
  cases neg with
  | true => rfl
  | false =>
      rw [if_neg (by decide), List.nil_append]
      cases cs with
      | nil => rfl
      | cons c cs =>
          have hc := isDigit_iff.mp (h c rfl)
          rw [readSign.eq_2]
          rintro cs' heq
          injection heq with h1 _
          omega

/-- **A valid layout is read back.** -/
theorem readNumeral_text (neg : Bool) {l : Layout} (h : l.Valid) :
    readNumeral (l.text neg) =
      some ⟨neg, ⟨digitsValue (l.whole ++ l.frac), l.exponent.elim 0 Prod.snd - l.frac.length⟩,
        l.frac = [] ∧ l.exponent = none⟩ := by
  obtain ⟨c, cs, hc⟩ := List.exists_cons_of_ne_nil h.whole_ne
  have hstop : StopsDigits ((if l.frac = [] then [] else 46 :: l.frac) ++
      l.exponent.elim [] fun e => exponentText e.1 e.2) := by
    split_ifs with hf
    · exact stopsDigits_exponent l.exponent
    · rintro d hd
      obtain rfl : 46 = d := by simpa using hd
      rfl
  obtain ⟨htake, hdrop⟩ := takeWhile_digits h.whole_digit hstop
  have hwhole : readWhole (l.whole ++ ((if l.frac = [] then [] else 46 :: l.frac) ++
      l.exponent.elim [] fun e => exponentText e.1 e.2)) =
        some (l.whole, (if l.frac = [] then [] else 46 :: l.frac) ++
          l.exponent.elim [] fun e => exponentText e.1 e.2) := by
    simp only [readWhole, htake, hdrop]
    rw [if_neg]
    rintro (h0 | ⟨h0, h1⟩)
    · exact h.whole_ne h0
    · exact h1 (h.no_leading_zero h0)
  have hexp : readExponent (l.exponent.elim [] fun e => exponentText e.1 e.2) =
      some (l.exponent.elim 0 Prod.snd) := by
    cases l.exponent with
    | none => rfl
    | some e => exact readExponent_text e.1 e.2
  have hnil : ((l.exponent.elim [] fun e => exponentText e.1 e.2) = []) = (l.exponent = none) := by
    cases l.exponent <;> simp [exponentText]
  have hsign := readSign_text neg (l.whole ++ ((if l.frac = [] then [] else 46 :: l.frac) ++
      l.exponent.elim [] fun e => exponentText e.1 e.2))
    (by rw [hc]; rintro d hd; obtain rfl : c = d := by simpa using hd
        exact h.whole_digit c (by simp [hc]))
  rw [Layout.text, List.append_assoc, List.append_assoc, readNumeral, hsign]
  simp only [hwhole, readFraction_text h.frac_digit, hexp, Option.bind_eq_bind, Option.bind_some, hnil]

/-- The characters of a valid layout: digits, signs, a point and `e`. -/
theorem Layout.mem_text {neg : Bool} {l : Layout} (h : l.Valid) {c : ℕ} (hc : c ∈ l.text neg) :
    isDigit c = true ∨ c ∈ [43, 45, 46, 101] := by
  have hexp : ∀ c ∈ l.exponent.elim [] (fun e => exponentText e.1 e.2),
      isDigit c = true ∨ c ∈ [43, 45, 46, 101] := by
    cases l.exponent with
    | none => simp
    | some e =>
        simp only [Option.elim_some, exponentText, List.mem_cons, List.mem_append]
        rintro c (rfl | rfl | h | h)
        · simp
        · split_ifs <;> simp
        · rw [List.eq_of_mem_replicate h]
          exact Or.inl rfl
        · exact Or.inl (isDigit_natText h)
  rw [Layout.text, List.mem_append, List.mem_append, List.mem_append] at hc
  rcases hc with ((hc | hc) | hc) | hc
  · split_ifs at hc <;> simp_all
  · exact Or.inl (h.whole_digit c hc)
  · split_ifs at hc
    · simp at hc
    · rcases List.mem_cons.mp hc with rfl | hc
      · simp
      · exact Or.inl (h.frac_digit c hc)
  · exact hexp c hc

theorem Layout.text_ne_nil {neg : Bool} {l : Layout} (h : l.Valid) : l.text neg ≠ [] := by
  simp [Layout.text, h.whole_ne]

/-! ## The layouts of a decimal -/

theorem positional_valid (tail : List ℕ) (d : Decimal) (htail : ∀ c ∈ tail, isDigit c = true)
    (h0 : d.coeff = 0 → d.exp ≤ 0) : (positional tail d).Valid := by
  have hpos := natText_length_pos d.coeff
  simp only [positional]
  split_ifs with hlow hmid
  · refine ⟨by simp [isDigit], by simp, fun _ => rfl, ?_⟩
    intro c hc
    rcases List.mem_append.mp hc with h | h
    · rw [List.eq_of_mem_replicate h]; rfl
    · exact isDigit_natText h
  · refine ⟨fun c hc => isDigit_natText (List.mem_of_mem_take hc), ?_, ?_,
      fun c hc => isDigit_natText (List.mem_of_mem_drop hc)⟩
    · intro hnil
      have := congrArg List.length hnil
      simp only [List.length_take, List.length_nil] at this
      omega
    · intro hhead
      rw [List.head?_take, if_neg (by omega)] at hhead
      have hz := head_natText hhead
      simp only [hz, natText, if_true] at hlow hmid
      simp at hmid hlow
      omega
  · refine ⟨?_, by simp [natText_ne_nil], ?_, htail⟩
    · intro c hc
      rcases List.mem_append.mp hc with h | h
      · exact isDigit_natText h
      · rw [List.eq_of_mem_replicate h]; rfl
    · intro hhead
      rw [List.head?_append_of_ne_nil _ (natText_ne_nil _)] at hhead
      have hz := head_natText hhead
      have he := h0 hz
      have hlen : (natText d.coeff).length = 1 := by rw [hz]; rfl
      have hrep : ((natText d.coeff).length + d.exp - (natText d.coeff).length).toNat = 0 := by omega
      rw [hrep, hz]
      rfl

theorem scientific_valid (width : ℕ) {d : Decimal} (h0 : d.coeff ≠ 0) :
    (scientific width d).Valid := by
  have hpos := natText_length_pos d.coeff
  refine ⟨fun c hc => isDigit_natText (List.mem_of_mem_take hc), ?_, ?_,
    fun c hc => isDigit_natText (List.mem_of_mem_drop hc)⟩
  · intro hnil
    have := congrArg List.length hnil
    simp only [scientific, List.length_take, List.length_nil] at this
    omega
  · intro hhead
    rw [scientific, List.head?_take, if_neg (by omega)] at hhead
    exact absurd (head_natText hhead) h0

/-- The decimal the digits of a layout denote. -/
def Layout.decimal (l : Layout) : Decimal :=
  ⟨digitsValue (l.whole ++ l.frac), l.exponent.elim 0 Prod.snd - l.frac.length⟩

theorem value_positional (tail : List ℕ) (d : Decimal) (htail : digitsValue tail = 0) :
    (positional tail d).decimal.value = d.value := by
  have hpos := natText_length_pos d.coeff
  simp only [positional, Layout.decimal]
  split_ifs with hlow hmid
  · have hexp : (0 : ℤ) - (List.replicate (-((natText d.coeff).length + d.exp)).toNat 48 ++
        natText d.coeff).length = d.exp := by
      rw [List.length_append, List.length_replicate]
      omega
    simp only [Option.elim_none, hexp]
    rw [digitsValue_append, digitsValue_append, digitsValue_replicate, digitsValue_natText]
    simp [digitsValue, Decimal.value]
  · have hexp : (0 : ℤ) - ((natText d.coeff).drop ((natText d.coeff).length + d.exp).toNat).length =
        d.exp := by
      rw [List.length_drop]
      omega
    simp only [Option.elim_none, hexp]
    rw [List.take_append_drop, digitsValue_natText]
  · have hk : ((natText d.coeff).length + d.exp - (natText d.coeff).length).toNat = d.exp.toNat := by
      omega
    rw [hk]
    simp only [Option.elim_none]
    rw [digitsValue_append, digitsValue_append, digitsValue_replicate, digitsValue_natText, htail,
      List.length_replicate, add_zero, add_zero, Decimal.value, Decimal.value]
    have hexp : (d.exp.toNat : ℤ) = d.exp := by omega
    push_cast
    rw [mul_assoc, mul_assoc, ← zpow_natCast, hexp, ← zpow_natCast, ← zpow_add₀ (by norm_num)]
    norm_num

theorem value_scientific (width : ℕ) (d : Decimal) :
    (scientific width d).decimal.value = d.value := by
  have hpos := natText_length_pos d.coeff
  have hexp : ((natText d.coeff).length + d.exp - 1 : ℤ) - ((natText d.coeff).drop 1).length =
      d.exp := by
    rw [List.length_drop]
    omega
  simp only [scientific, Layout.decimal, Option.elim_some, hexp]
  rw [List.take_append_drop, digitsValue_natText]

theorem eq_rdropWhile_append (cs : List ℕ) :
    ∃ k, cs = cs.rdropWhile (fun c => c = 48) ++ List.replicate k 48 := by
  induction cs using List.reverseRecOn with
  | nil => exact ⟨0, rfl⟩
  | append_singleton cs c ih =>
      by_cases hc : c = 48
      · obtain ⟨k, hk⟩ := ih
        refine ⟨k + 1, ?_⟩
        rw [List.rdropWhile_concat_pos _ _ _ (by simpa using hc), List.replicate_succ',
          ← List.append_assoc, ← hk, hc]
      · refine ⟨0, ?_⟩
        rw [List.rdropWhile_concat_neg _ _ _ (by simpa using hc), List.replicate_zero,
          List.append_nil]

/-- The layout without the zeros that end its fraction. -/
def Layout.stripZeros (l : Layout) : Layout := { l with frac := l.frac.rdropWhile fun c => c = 48 }

/-- Stripping keeps the number and makes its decimal no finer. -/
theorem Layout.stripZeros_decimal (l : Layout) :
    l.stripZeros.decimal.value = l.decimal.value ∧ l.decimal.exp ≤ l.stripZeros.decimal.exp := by
  obtain ⟨k, hk⟩ := eq_rdropWhile_append l.frac
  have hlen : l.frac.length = (l.frac.rdropWhile fun c => c = 48).length + k := by
    conv_lhs => rw [hk]
    rw [List.length_append, List.length_replicate]
  refine ⟨?_, ?_⟩
  · have hdigits : digitsValue (l.whole ++ l.frac) =
        digitsValue (l.whole ++ l.frac.rdropWhile fun c => c = 48) * 10 ^ k := by
      conv_lhs => rw [hk]
      rw [← List.append_assoc, digitsValue_append, digitsValue_replicate, List.length_replicate,
        add_zero, mul_comm]
    simp only [stripZeros, decimal, Decimal.value, hdigits, hlen]
    push_cast
    rw [mul_assoc, ← zpow_natCast, ← zpow_add₀ (by norm_num)]
    congr 2
    omega
  · simp only [stripZeros, decimal, hlen]
    push_cast
    omega

/-- A natural number in digits is read back as that integer. -/
theorem readNumeral_natText (neg : Bool) (n : ℕ) :
    readNumeral ((if neg then [45] else []) ++ natText n) = some ⟨neg, ⟨n, 0⟩, true⟩ := by
  have hvalid : Layout.Valid ⟨natText n, [], none⟩ :=
    ⟨fun c hc => isDigit_natText hc, natText_ne_nil n,
      fun h => by rw [head_natText h]; rfl, by simp⟩
  have h := readNumeral_text neg hvalid
  simpa [Layout.text, digitsValue_natText] using h

/-! ## The characters of numbers -/

/-- The characters of a number. -/
def isNumeralCode (c : ℕ) : Bool := isDigit c || c = 43 || c = 45 || c = 46 || c = 69 || c = 101

theorem forall_of_takeWhile {q : ℕ → Bool} {cs : List ℕ} (htake : ∀ c ∈ cs.takeWhile isDigit, q c = true)
    (hdrop : ∀ c ∈ cs.dropWhile isDigit, q c = true) : ∀ c ∈ cs, q c = true := by
  intro c hc
  rw [← List.takeWhile_append_dropWhile (p := isDigit) (l := cs), List.mem_append] at hc
  exact hc.elim (htake c) (hdrop c)

theorem isNumeralCode_digits {cs : List ℕ} : ∀ c ∈ cs.takeWhile isDigit, isNumeralCode c = true := by
  intro c hc
  simp [isNumeralCode, List.mem_takeWhile_imp hc]

theorem readDigits_codes {cs : List ℕ} {n : ℕ} (h : readDigits cs = some n) :
    ∀ c ∈ cs, isNumeralCode c = true := by
  rw [readDigits] at h
  split_ifs at h with hcs
  intro c hc
  have hdigit := List.all_eq_true.mp hcs.2 c hc
  simp [isNumeralCode, hdigit]

theorem readExponent_codes {cs : List ℕ} {e : ℤ} (h : readExponent cs = some e) :
    ∀ c ∈ cs, isNumeralCode c = true := by
  cases cs with
  | nil => simp
  | cons c cs =>
      unfold readExponent at h
      simp only at h
      split_ifs at h with hc
      have hcode : isNumeralCode c = true := by rcases hc with rfl | rfl <;> rfl
      have hrest : ∀ d ∈ cs, isNumeralCode d = true := by
        split at h
        · obtain ⟨n, hn, -⟩ := Option.map_eq_some_iff.mp h
          exact List.forall_mem_cons.mpr ⟨rfl, readDigits_codes hn⟩
        · obtain ⟨n, hn, -⟩ := Option.map_eq_some_iff.mp h
          exact List.forall_mem_cons.mpr ⟨rfl, readDigits_codes hn⟩
        · obtain ⟨n, hn, -⟩ := Option.map_eq_some_iff.mp h
          exact readDigits_codes hn
      exact List.forall_mem_cons.mpr ⟨hcode, hrest⟩

theorem readFraction_codes {cs frac rest : List ℕ} (h : readFraction cs = some (frac, rest))
    (hrest : ∀ c ∈ rest, isNumeralCode c = true) : ∀ c ∈ cs, isNumeralCode c = true := by
  unfold readFraction at h
  split at h
  · simp only at h
    split_ifs at h
    obtain ⟨rfl, rfl⟩ := Prod.mk.inj (Option.some.inj h)
    exact List.forall_mem_cons.mpr ⟨rfl, forall_of_takeWhile isNumeralCode_digits hrest⟩
  · obtain ⟨-, rfl⟩ := Prod.mk.inj (Option.some.inj h)
    exact hrest

/-- **A number is written in the characters of numbers**, at least one. -/
theorem readNumeral_codes {text : List ℕ} {n : Numeral} (h : readNumeral text = some n) :
    text ≠ [] ∧ ∀ c ∈ text, isNumeralCode c = true := by
  simp only [readNumeral, Option.bind_eq_bind, Option.bind_eq_some_iff] at h
  obtain ⟨⟨whole, afterWhole⟩, hwhole, ⟨frac, afterFrac⟩, hfrac, e, he, -⟩ := h
  have htail := readFraction_codes hfrac (readExponent_codes he)
  rw [readWhole] at hwhole
  split_ifs at hwhole with hno
  obtain ⟨-, rfl⟩ := Prod.mk.inj (Option.some.inj hwhole)
  have hne : (readSign text).2 ≠ [] := by
    intro hnil
    exact hno (Or.inl (by rw [hnil]; rfl))
  have hall := forall_of_takeWhile isNumeralCode_digits htail
  have hsign : text = (readSign text).2 ∨ text = 45 :: (readSign text).2 := by
    unfold readSign
    split
    · exact Or.inr rfl
    · exact Or.inl rfl
  rcases hsign with heq | heq
  · rw [heq]
    exact ⟨hne, hall⟩
  · rw [heq]
    exact ⟨by simp, List.forall_mem_cons.mpr ⟨rfl, hall⟩⟩

end SwarmAuth
