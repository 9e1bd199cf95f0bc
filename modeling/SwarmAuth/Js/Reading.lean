import SwarmAuth.Js.Wire
import SwarmAuth.Lib.JsonReading
import SwarmAuth.Lib.Canonical

/-!
# Reading what was written

`JSON.parse` reads back what the encoders write, but for the sign of zero, which they do not
write. An amount has texts of its own; the text of claims around one is read to the claims.

## Main definitions

* `Reads`, `reads_scalarText` — the texts that are read to a scalar.
* `WireClaims.parse_text` — the text of claims is read to the claims.
-/
namespace SwarmAuth.Js

/-- Zero without its sign. -/
def unsigned : Scalar → Scalar
  | .number (.finite neg mag) => .number (.finite (neg && mag.sig ≠ 0) mag)
  | w => w

/-- A bare word that `JSON.parse` reads to a scalar. -/
structure Reads (text : List ℕ) (w : Scalar) : Prop where
  ne_nil : text ≠ []
  word : ∀ c ∈ text, Json.isWordCode c = true
  classified : classify text = some w

/-- A layout is read to the number nearest to its decimal. -/
theorem reads_layout (neg : Bool) {l : Layout} (h : l.Valid) :
    Reads (l.text neg) (.number (.nearest neg l.decimal.value)) := by
  have hread := readNumeral_text neg h
  obtain ⟨hne, hcodes⟩ := readNumeral_codes hread
  exact ⟨hne, fun c hc => Json.isWordCode_of_isNumeralCode (hcodes c hc), classify_of_numeral hread⟩

theorem reads_numberText {d : Double} (h : isFinite d = true) :
    Reads (numberText d) (unsigned (.number d)) := by
  cases d with
  | finite neg mag =>
      have hread := reads_layout (neg && mag.sig ≠ 0) (numberLayout_valid mag)
      rwa [value_numberLayout, Double.nearest_shortest] at hread
  | inf neg => cases h
  | nan => cases h

/-- A whole number's digits, with a fraction digit, are read to the number. -/
theorem reads_whole {neg : Bool} {mag : Binary64} (h : isInteger (.finite neg mag) = true) :
    Reads ((if neg && mag.sig ≠ 0 then [45] else []) ++ natText ⌊mag.value⌋₊ ++ [46, 48])
      (unsigned (.number (.finite neg mag))) := by
  have hvalid : (⟨natText ⌊mag.value⌋₊, [48], none⟩ : Layout).Valid := by
    refine ⟨fun c hc => isDigit_natText hc, natText_ne_nil _, fun hhead => ?_, fun c hc => ?_⟩
    · rw [head_natText hhead]
      rfl
    · rw [List.mem_singleton.mp hc]
      rfl
  have hwhole : ((⌊mag.value⌋₊ : ℕ) : ℚ) = mag.value := by
    have hden : mag.value.den = 1 := by
      cases neg <;> simpa [isInteger, Double.value?] using h
    have hnonneg : 0 ≤ mag.value.num := Rat.num_nonneg.mpr mag.value_nonneg
    have hvalue : mag.value = (mag.value.num.toNat : ℚ) := by
      conv_lhs => rw [← Rat.num_div_den mag.value, hden, Nat.cast_one, div_one]
      rw [← Int.cast_natCast, Int.toNat_of_nonneg hnonneg]
    rw [hvalue, Nat.floor_natCast]
  have hvalue : (⟨natText ⌊mag.value⌋₊, [48], none⟩ : Layout).decimal.value = mag.value := by
    have hten := value_of_no_exponent (l := ⟨natText ⌊mag.value⌋₊, [48], none⟩) rfl
    rw [digitsValue_append, digitsValue_natText] at hten
    have hzero : digitsValue [48] = 0 := rfl
    rw [hzero] at hten
    push_cast [List.length_singleton, pow_one] at hten
    rw [hwhole, add_zero] at hten
    exact mul_right_cancel₀ (by norm_num) hten
  have hread := reads_layout (neg && mag.sig ≠ 0) hvalid
  rw [hvalue, Double.nearest, Binary64.ofRat_value] at hread
  simpa [Layout.text, unsigned] using hread

/-- **A scalar's text is read to the scalar.** -/
theorem reads_scalarText {w : Scalar} (h : portable w = true) : Reads (scalarText w) (unsigned w) := by
  cases w with
  | null => exact ⟨by decide, by decide, rfl⟩
  | undefined => cases h
  | bool b => cases b <;> exact ⟨by decide, by decide, rfl⟩
  | number d => exact reads_numberText h
  | other => cases h
  | hole => cases h

/-! ## Trees of words -/

/-- A tree of words is read word by word. -/
theorem parse_words {t : Json.Tree (List ℕ) Units}
    (h : t.allScalars (fun text => text ≠ [] && text.all Json.isWordCode) = true) :
    Json.parse classify (Json.render id t) = t.traverse classify := by
  have hwords : Json.parse some (Json.render id t) = some t := by
    refine Json.parse_render t _ ?_ h
    intro text htext
    simp only [Bool.and_eq_true, decide_eq_true_eq, List.all_eq_true] at htext
    exact ⟨htext.1, htext.2, rfl⟩
  exact Json.parse_traverse (fun s a h => by rw [Option.some.inj h]) hwords

/-- A value's scalars, as they are written. -/
def words (v : Value) : Json.Tree (List ℕ) Units := v.mapScalars scalarText

/-- Its scalars, as they are read. -/
def asRead (v : Value) : Value := v.mapScalars unsigned

theorem traverse_words {v : Value} (h : v.allScalars portable = true) :
    (words v).traverse classify = some (asRead v) := by
  rw [words, Json.Tree.traverse_mapScalars]
  exact Json.Tree.traverse_of_allScalars (fun w hw => (reads_scalarText hw).classified) h

theorem traverse_words_str (s : Units) : (words (.str s)).traverse classify = some (.str s) := rfl

theorem words_wordy {v : Value} (h : v.allScalars portable = true) :
    (words v).allScalars (fun text => text ≠ [] && text.all Json.isWordCode) = true := by
  rw [words, Json.Tree.allScalars_mapScalars]
  refine Json.Tree.allScalars_mono (fun w hw => ?_) h
  have hread := reads_scalarText hw
  simp only [Bool.and_eq_true, decide_eq_true_eq, List.all_eq_true]
  exact ⟨hread.ne_nil, hread.word⟩

theorem render_words (v : Value) : Json.render id (words v) = WireClaims.valueText v :=
  Json.render_mapScalars ..

/-! ## The text of claims -/

namespace WireClaims
variable (c : WireClaims) (amount : List ℕ)

/-- The values of the claims are in JSON. -/
structure Portable : Prop where
  allowedParams : c.allowedParams.allScalars portable = true
  maxCalls : c.maxCalls.allScalars portable = true
  rateLimitPerMin : c.rateLimitPerMin.allScalars portable = true
  exp : c.exp.allScalars portable = true
  iat : c.iat.allScalars portable = true

/-- The constraints as they are written, around a text of the amount. -/
def constraintsWords : List (Units × Json.Tree (List ℕ) Units) :=
  [(lit "allowed_params", words c.allowedParams), (lit "max_amount_usd", .scalar amount),
    (lit "max_calls", words c.maxCalls), (lit "rate_limit_per_min", words c.rateLimitPerMin)] ++
    (optional (lit "shared_budget") c.sharedBudget).map fun m => (m.1, words m.2)

/-- The claims as they are written, around a text of the amount. -/
def memberWords : List (Units × Json.Tree (List ℕ) Units) :=
  [(lit "capabilities", words (.arr (c.capabilities.map .str))),
    (lit "constraints", .obj (c.constraintsWords amount))] ++
    (optional (lit "dlg") c.dlg).map (fun m => (m.1, words m.2)) ++
    [(lit "exp", words c.exp), (lit "iat", words c.iat), (lit "iss", .str c.iss),
      (lit "jti", .str c.jti)] ++
    (optional (lit "prf") c.prf).map (fun m => (m.1, words m.2)) ++ [(lit "sub", .str c.sub)]

theorem render_obj_words (ms : List (Units × Json.Tree (List ℕ) Units)) :
    Json.render id (.obj ms) =
      123 :: [44].intercalate (ms.map fun m => keyText m.1 ++ Json.render id m.2) ++ [125] := by
  rw [Json.render_obj]
  congr! 4 with m
  simp [keyText, quoted]

theorem render_constraintsWords :
    Json.render id (.obj (c.constraintsWords amount)) = c.constraintsText amount := by
  rw [render_obj_words]
  cases hb : c.sharedBudget <;>
    simp [constraintsWords, optional, constraintsText, pinFront, pinBack, optionalText, hb,
      List.intercalate_cons_cons, render_words, valueText_str]

theorem render_memberWords :
    Json.render id (.obj (c.memberWords amount)) = c.text (c.constraintsText amount) := by
  have hstr : ∀ s : Units, Json.render id (.str s : Json.Tree (List ℕ) Units) = quoted s :=
    fun s => Json.render_str ..
  rw [render_obj_words, memberWords, ← render_constraintsWords]
  cases hd : c.dlg <;> cases hp : c.prf <;>
    simp [optional, text, front, back, optionalText, hd, hp, List.intercalate_cons_cons,
      render_words, valueText_str, valueText_strings, hstr]

/-- The claims with this amount. -/
def withAmount (w : Scalar) : WireClaims := { c with maxAmountUsd := .scalar w }

theorem traverse_constraintsWords {w : Scalar} (hc : c.Portable) (hamount : Reads amount (unsigned w)) :
    (Json.Tree.obj (c.constraintsWords amount)).traverse classify =
      some (asRead (.obj (c.withAmount w).constraints)) := by
  cases hb : c.sharedBudget <;>
    simp [constraintsWords, optional, constraints, withAmount, hb, asRead, hamount.classified,
      traverse_words hc.allowedParams, traverse_words hc.maxCalls, traverse_words hc.rateLimitPerMin,
      traverse_words_str]

theorem traverse_memberWords {w : Scalar} (hc : c.Portable) (hamount : Reads amount (unsigned w)) :
    (Json.Tree.obj (c.memberWords amount)).traverse classify =
      some (asRead (.obj (c.withAmount w).members)) := by
  have hstrings : (words (.arr (c.capabilities.map .str))).traverse classify =
      some (asRead (.arr (c.capabilities.map .str))) := traverse_words (by simp)
  have hconstraints := c.traverse_constraintsWords amount hc hamount
  rw [Json.Tree.traverse_obj, memberWords, members]
  rw [show (c.withAmount w).capabilities = c.capabilities from rfl,
    show (c.withAmount w).dlg = c.dlg from rfl, show (c.withAmount w).prf = c.prf from rfl,
    show (c.withAmount w).exp = c.exp from rfl, show (c.withAmount w).iat = c.iat from rfl,
    show (c.withAmount w).iss = c.iss from rfl, show (c.withAmount w).jti = c.jti from rfl,
    show (c.withAmount w).sub = c.sub from rfl]
  cases c.dlg <;> cases c.prf <;>
    simp only [optional, Option.elim_none, Option.elim_some, List.map_nil, List.map_cons,
      List.append_nil, List.cons_append, List.nil_append, List.mapM_cons, List.mapM_nil, hstrings,
      hconstraints, traverse_words_str, traverse_words hc.exp, traverse_words hc.iat, Json.Tree.traverse_str,
      Option.map_some, Option.bind_eq_bind, Option.bind_some, Option.pure_def, asRead,
      Json.Tree.mapScalars_obj, Json.Tree.mapScalars_str]

/-- The words of the claims are words of JSON. -/
theorem wordy_memberWords {w : Scalar} (hc : c.Portable) (hamount : Reads amount w) :
    (Json.Tree.obj (c.memberWords amount)).allScalars
      (fun text => text ≠ [] && text.all Json.isWordCode) = true := by
  have hword : (amount ≠ [] && amount.all Json.isWordCode) = true := by
    simp only [Bool.and_eq_true, decide_eq_true_eq, List.all_eq_true]
    exact ⟨hamount.ne_nil, hamount.word⟩
  have hstrings := words_wordy (v := .arr (c.capabilities.map .str)) (by simp)
  have hpins := words_wordy hc.allowedParams
  have hcalls := words_wordy hc.maxCalls
  have hrate := words_wordy hc.rateLimitPerMin
  have hexp := words_wordy hc.exp
  have hiat := words_wordy hc.iat
  have hstr : ∀ s : Units, (words (.str s)).allScalars
      (fun text => text ≠ [] && text.all Json.isWordCode) = true := fun _ => rfl
  have hconstraints : (Json.Tree.obj (c.constraintsWords amount)).allScalars
      (fun text => text ≠ [] && text.all Json.isWordCode) = true := by
    rw [Json.Tree.allScalars_obj, constraintsWords]
    cases c.sharedBudget <;>
      simp only [optional, Option.elim_none, Option.elim_some, List.map_nil, List.map_cons,
        List.append_nil, List.cons_append, List.nil_append, List.all_cons, List.all_nil, hpins,
        hcalls, hrate, hstr, Json.Tree.allScalars_scalar, hword, Bool.and_self]
  rw [Json.Tree.allScalars_obj, memberWords]
  cases c.dlg <;> cases c.prf <;>
    simp only [optional, Option.elim_none, Option.elim_some, List.map_nil, List.map_cons,
      List.append_nil, List.cons_append, List.nil_append, List.all_cons, List.all_nil, hstrings,
      hconstraints, hexp, hiat, hstr, Json.Tree.allScalars_str, Bool.and_self]

/-- **The text of claims is read to the claims.** -/
theorem parse_text {w : Scalar} (hc : c.Portable) (hamount : Reads amount (unsigned w)) :
    Json.parse classify (c.text (c.constraintsText amount)) =
      some (asRead (.obj (c.withAmount w).members)) := by
  rw [← c.render_memberWords, parse_words (c.wordy_memberWords amount hc hamount)]
  exact c.traverse_memberWords amount hc hamount

end WireClaims

end SwarmAuth.Js
