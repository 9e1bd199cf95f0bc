import SwarmAuth.Js.Encoder

/-!
# Canonical JSON in TypeScript

`canonicalJson.ts`: the same recursion as in Node, with strings escaped in one loop over
their UTF-16 units.

## Main definitions

* `encodeString`, `encodeNumber`, `canonicalJsonString` — the source's functions.
* `canonicalJsonString_eq` — what is written is the rendering of the sorted value.
-/
namespace SwarmAuth.TypeScript

open Js

/-- `SINGLE_CHAR_ESCAPES`. -/
def singleCharEscapes : ℕ → Option (List ℕ)
  | 34 => some [92, 34]
  | 92 => some [92, 92]
  | 8 => some [92, 98]
  | 12 => some [92, 102]
  | 10 => some [92, 110]
  | 13 => some [92, 114]
  | 9 => some [92, 116]
  | _ => none

/-- One unit in the loop of `encodeString`. -/
def encodeUnit (ch : UInt16) : List ℕ :=
  let code := ch.toNat
  match singleCharEscapes code with
  | some special => special
  | none => if code < 0x20 ∨ 0x7E < code then Json.hexEscape code else [code]

/-- `encodeString`. -/
def encodeString (value : Units) : List ℕ := 34 :: value.flatMap encodeUnit ++ [34]

/-- `encodeNumber`. -/
def encodeNumber (value : Double) : Outcome (List ℕ) :=
  if isFinite value then .ok (numberText value)
  else .error (.typeError "Cannot canonicalize non-finite number")

/-- `canonicalJsonString` of a value without parts; `Object.keys` finds none on a function. -/
def encodeScalar : Scalar → Outcome (List ℕ)
  | .null => .ok (Json.codes "null")
  | .bool true => .ok (Json.codes "true")
  | .bool false => .ok (Json.codes "false")
  | .number d => encodeNumber d
  | .undefined => .error (.typeError "Cannot convert undefined or null to object")
  | .other => .ok [123, 125]
  | .hole => .ok []

/-- `canonicalJsonString`. -/
def canonicalJsonString : Value → Outcome (List ℕ) := encodeWith encodeScalar encodeString

/-- The loop escapes as the library does. -/
theorem encodeUnit_eq (u : UInt16) : encodeUnit u = Json.escapeUnit u := by
  simp only [encodeUnit, Json.escapeUnit]
  generalize u.toNat = n
  by_cases hascii : n < 128
  · revert n
    decide
  · have hnone : singleCharEscapes n = none := by
      unfold singleCharEscapes
      split <;> first | rfl | omega
    simp only [hnone]
    rw [if_pos (Or.inr (by omega)), if_neg (by omega), if_neg (by omega), if_neg (by omega),
      if_neg (by omega), if_neg (by omega), if_neg (by omega), if_neg (by omega),
      if_pos (Or.inr (by omega))]

/-- **The loop of `encodeString` escapes unit by unit.** -/
theorem encodeString_eq (s : Units) :
    encodeString s = 34 :: s.flatMap Json.escapeUnit ++ [34] := by
  rw [encodeString, List.flatMap_congr fun u _ => encodeUnit_eq u]

theorem encodeScalar_eq (w : Scalar) (h : portable w = true) :
    encodeScalar w = .ok (scalarText w) := by
  cases w with
  | null => rfl
  | undefined => cases h
  | bool b => cases b <;> rfl
  | number d =>
      have hfinite : isFinite d = true := h
      rw [encodeScalar, encodeNumber, if_pos hfinite, scalarText]
  | other => cases h
  | hole => cases h

/-- **What is written is the rendering of the sorted value.** -/
theorem canonicalJsonString_eq {v : Value} (h : v.allScalars portable = true) :
    canonicalJsonString v = .ok (Json.render scalarText (v.canon codePoints)) :=
  encodeWith_eq encodeScalar_eq encodeString_eq h

end SwarmAuth.TypeScript
