import SwarmAuth.Js.Encoder

/-!
# Canonical JSON in Node

`encode` of `index.js`: strings through `JSON.stringify` with everything from U+007F on
escaped afterwards, numbers as JavaScript writes them, keys in the order of their code
points.

## Main definitions

* `encodeString`, `formatAmount`, `encode`, `canonicalJson` — the source's functions.
* `encodeString_eq` — the two passes escape unit by unit.
* `encode_eq` — what is encoded is the rendering of the sorted value.
-/
namespace SwarmAuth.Node

open Js

/-- `formatAmount`: a whole amount has a fraction digit, up to `1e21`. -/
def formatAmount (value : Double) : Outcome (List ℕ) :=
  match value with
  | .finite neg mag =>
      if isInteger value then
        .ok (if mag.value < 10 ^ 21 then
          (if neg && mag.sig ≠ 0 then [45] else []) ++ natText ⌊mag.value⌋₊ ++ [46, 48]
        else numberText value)
      else .ok (numberText value)
  | _ => .error (.swarmAuth "CONSTRAINT_VIOLATION" "max_amount_usd must be finite")

/-- `encodeString`. -/
def encodeString (value : Units) : List ℕ :=
  (stringifyString value).flatMap fun ch => if 0x7F ≤ ch then Json.hexEscape ch else [ch]

/-- `encode` of a value without parts; `map` leaves a hole, and `join` writes nothing for it. -/
def encodeScalar : Scalar → Outcome (List ℕ)
  | .null => .ok (Json.codes "null")
  | .bool true => .ok (Json.codes "true")
  | .bool false => .ok (Json.codes "false")
  | .number d =>
      if isFinite d then .ok (numberText d)
      else .error (.swarmAuth "MALFORMED_TOKEN" "non-finite number in claims")
  | .hole => .ok []
  | .undefined | .other => .error (.swarmAuth "MALFORMED_TOKEN" "unsupported JSON value")

/-- `encode`. -/
def encode : Value → Outcome (List ℕ) := encodeWith encodeScalar encodeString

/-- `canonicalJson`. -/
def canonicalJson (value : Value) : Outcome (List ℕ) := encode value

/-! ## Strings -/

theorem hexDigit_lt {n : ℕ} (h : n < 16) : Json.hexDigit n < 127 := by
  have := Json.printable_hexDigit n h
  simp only [Json.isPrintable, Bool.and_eq_true, decide_eq_true_eq] at this
  exact this.2

/-- The second pass leaves an escape as it is. -/
theorem escape_hexEscape (n : ℕ) :
    (Json.hexEscape n).flatMap (fun ch => if 0x7F ≤ ch then Json.hexEscape ch else [ch]) =
      Json.hexEscape n := by
  have hdigit : ∀ k, ¬ 0x7F ≤ Json.hexDigit (k % 16) := fun k =>
    not_le.mpr (hexDigit_lt (Nat.mod_lt k (by norm_num)))
  simp [Json.hexEscape, List.flatMap_cons, hdigit]

theorem escapeUnit_high {u : UInt16} (h : 127 ≤ u.toNat) :
    Json.escapeUnit u = Json.hexEscape u.toNat := by
  simp only [Json.escapeUnit]
  rw [if_neg (by omega), if_neg (by omega), if_neg (by omega), if_neg (by omega),
    if_neg (by omega), if_neg (by omega), if_neg (by omega), if_pos (Or.inr h)]

/-- Above ASCII every unit of a code point is. -/
theorem units_high {c : ℕ} (h : 127 ≤ c) (hc : c < 0x110000) : ∀ u ∈ unitsOf c, 127 ≤ u.toNat := by
  intro u hu
  rw [unitsOf] at hu
  split_ifs at hu with hplane
  · rw [List.mem_singleton.mp hu, UInt16.toNat_ofNat']
    omega
  · rcases List.mem_cons.mp hu with rfl | hu
    · rw [UInt16.toNat_ofNat']
      omega
    · rw [List.mem_singleton.mp hu, UInt16.toNat_ofNat']
      omega

/-- In ASCII the two passes make the escapes of one unit. -/
theorem escape_quoteCode_ascii : ∀ c < 127,
    (quoteCode c).flatMap (fun ch => if 0x7F ≤ ch then Json.hexEscape ch else [ch]) =
      (unitsOf c).flatMap Json.escapeUnit := by
  decide

/-- Quoted and escaped, a code point is the escapes of its units. -/
theorem escape_quoteCode {c : ℕ} (hc : c < 0x110000) :
    (quoteCode c).flatMap (fun ch => if 0x7F ≤ ch then Json.hexEscape ch else [ch]) =
      (unitsOf c).flatMap Json.escapeUnit := by
  by_cases hascii : c < 127
  · exact escape_quoteCode_ascii c hascii
  · have hquote : quoteCode c = if c < 32 ∨ 0xD800 ≤ c ∧ c < 0xE000 then Json.hexEscape c
        else (unitsOf c).map UInt16.toNat := by
      rw [quoteCode, if_neg (by omega), if_neg (by omega), if_neg (by omega), if_neg (by omega),
        if_neg (by omega), if_neg (by omega), if_neg (by omega)]
    have hhigh := units_high (not_lt.mp hascii) hc
    have hunits : (unitsOf c).flatMap Json.escapeUnit =
        (unitsOf c).flatMap fun u => Json.hexEscape u.toNat :=
      List.flatMap_congr fun u hu => escapeUnit_high (hhigh u hu)
    rw [hquote, hunits]
    by_cases hsurrogate : c < 32 ∨ 0xD800 ≤ c ∧ c < 0xE000
    · -- escaped by the first pass already
      have hunit : (UInt16.ofNat c).toNat = c := by
        rw [UInt16.toNat_ofNat']
        omega
      rw [if_pos hsurrogate, escape_hexEscape, unitsOf, if_pos (by omega), List.flatMap_singleton,
        hunit]
    · rw [if_neg hsurrogate, List.flatMap_map]
      exact List.flatMap_congr fun u hu => if_pos (hhigh u hu)

/-- **The two passes of `encodeString` escape unit by unit.** -/
theorem encodeString_eq (s : Units) :
    encodeString s = 34 :: s.flatMap Json.escapeUnit ++ [34] := by
  have hcodes : ∀ cs : List ℕ, (∀ c ∈ cs, c < 0x110000) →
      (cs.flatMap quoteCode).flatMap (fun ch => if 0x7F ≤ ch then Json.hexEscape ch else [ch]) =
        (cs.flatMap unitsOf).flatMap Json.escapeUnit := by
    intro cs hcs
    rw [List.flatMap_assoc, List.flatMap_assoc]
    exact List.flatMap_congr fun c hc => escape_quoteCode (hcs c hc)
  rw [encodeString, stringifyString, List.cons_append, List.flatMap_cons, List.flatMap_append,
    hcodes _ (codePoints_lt s), flatMap_unitsOf_codePoints]
  rfl

/-! ## Values -/

theorem encodeScalar_eq (w : Scalar) (h : portable w = true) :
    encodeScalar w = .ok (scalarText w) := by
  cases w with
  | null => rfl
  | undefined => cases h
  | bool b => cases b <;> rfl
  | number d =>
      have hfinite : isFinite d = true := h
      rw [encodeScalar, if_pos hfinite, scalarText]
  | other => cases h
  | hole => cases h

/-- **What is encoded is the rendering of the sorted value.** -/
theorem encode_eq {v : Value} (h : v.allScalars portable = true) :
    encode v = .ok (Json.render scalarText (v.canon codePoints)) :=
  encodeWith_eq encodeScalar_eq encodeString_eq h

end SwarmAuth.Node
