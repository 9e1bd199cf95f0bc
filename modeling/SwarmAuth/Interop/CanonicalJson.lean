import SwarmAuth.Python.Json
import SwarmAuth.Node.Encode
import SwarmAuth.TypeScript.CanonicalJson

/-!
# Canonical JSON across the SDKs

Every signature is over canonical JSON, so the SDKs have to write the same bytes. Python
escapes code points, Node passes over a quoted string a second time, TypeScript loops over
units; keys are sorted by code points in all three.

## Main definitions

* `Atom`, `Portable` — the values the SDKs share.
* `encodeBasestringAscii`, `iterencode` — how Python's `json` writes a string and a value.
* `canonicalJson_agrees` — the three encoders write the same bytes.
-/
namespace SwarmAuth.Interop

/-- `null`, a boolean, or an integer in the safe range. -/
inductive Atom where
  | null
  | bool (b : Bool)
  | int (n : ℤ) (safe : n.natAbs ≤ 2 ^ 53 - 1)
  deriving DecidableEq

/-- A value of the data the SDKs share; an object is a list of members. -/
abbrev Portable := Json.Tree Atom Units

/-- An atom in Python. -/
def Atom.python : Atom → Python.Scalar
  | .null => .none
  | .bool b => .bool b
  | .int n _ => .int n

/-- An atom in JavaScript. -/
def Atom.js : Atom → Js.Scalar
  | .null => .null
  | .bool b => .bool b
  | .int n _ => .number (.ofInt n)

/-- A value in Python and in JavaScript. -/
def toPython (v : Portable) : Python.Value := v.mapScalars Atom.python
def toJs (v : Portable) : Js.Value := v.mapScalars Atom.js

/-! ## Strings in Python -/

/-- `ESCAPE_ASCII.sub(replace, s)` on one code point; one above the basic plane is written as
its surrogates. -/
def escapeCodePoint (c : ℕ) : List ℕ :=
  if c = 92 then [92, 92]
  else if c = 34 then [92, 34]
  else if c = 8 then [92, 98]
  else if c = 12 then [92, 102]
  else if c = 10 then [92, 110]
  else if c = 13 then [92, 114]
  else if c = 9 then [92, 116]
  else if 32 ≤ c ∧ c ≤ 126 then [c]
  else if c < 0x10000 then Json.hexEscape c
  else
    let n := c - 0x10000
    Json.hexEscape (0xD800 ||| ((n >>> 10) &&& 0x3FF)) ++ Json.hexEscape (0xDC00 ||| (n &&& 0x3FF))

/-- `encode_basestring_ascii`, over code points. -/
def encodeBasestringAscii (s : List ℕ) : List ℕ := 34 :: s.flatMap escapeCodePoint ++ [34]

theorem escapeCodePoint_ascii : ∀ c < 127,
    escapeCodePoint c = (unitsOf c).flatMap Json.escapeUnit := by
  decide

/-- An escaped code point is the escapes of its units. -/
theorem escapeCodePoint_eq {c : ℕ} (hc : c < 0x110000) :
    escapeCodePoint c = (unitsOf c).flatMap Json.escapeUnit := by
  by_cases hascii : c < 127
  · exact escapeCodePoint_ascii c hascii
  · have hhigh := Node.units_high (not_lt.mp hascii) hc
    have hunits : (unitsOf c).flatMap Json.escapeUnit =
        (unitsOf c).flatMap fun u => Json.hexEscape u.toNat :=
      List.flatMap_congr fun u hu => Node.escapeUnit_high (hhigh u hu)
    rw [hunits, escapeCodePoint, if_neg (by omega), if_neg (by omega), if_neg (by omega),
      if_neg (by omega), if_neg (by omega), if_neg (by omega), if_neg (by omega), if_neg (by omega)]
    by_cases hplane : c < 0x10000
    · have hunit : (UInt16.ofNat c).toNat = c := by
        rw [UInt16.toNat_ofNat']
        omega
      rw [if_pos hplane, unitsOf, if_pos hplane, List.flatMap_singleton, hunit]
    · have hor : ∀ a b : ℕ, a % 0x400 = 0 → b < 0x400 → a ||| b = a + b := by
        intro a b ha hb
        have hsplit : a = 2 ^ 10 * (a / 0x400) := by omega
        rw [hsplit, ← Nat.two_pow_add_eq_or_of_lt hb]
      have hmod : ∀ a : ℕ, a &&& 0x3FF = a % 0x400 := fun a => Nat.and_two_pow_sub_one_eq_mod a 10
      have hshift : (c - 0x10000) >>> 10 = (c - 0x10000) / 0x400 := Nat.shiftRight_eq_div_pow _ 10
      have hhi : (0xD800 + (c - 0x10000) / 0x400) % 2 ^ 16 = 0xD800 + (c - 0x10000) / 0x400 % 0x400 := by
        omega
      have hlo : (0xDC00 + (c - 0x10000) % 0x400) % 2 ^ 16 = 0xDC00 + (c - 0x10000) % 0x400 := by
        omega
      rw [if_neg hplane, unitsOf, if_neg hplane, List.flatMap_cons, List.flatMap_singleton,
        UInt16.toNat_ofNat', UInt16.toNat_ofNat', hhi, hlo]
      simp only
      rw [hmod, hmod, hshift, hor _ _ (by norm_num) (Nat.mod_lt _ (by norm_num)),
        hor _ _ (by norm_num) (Nat.mod_lt _ (by norm_num))]

/-- **Python escapes unit by unit as well.** -/
theorem encodeBasestringAscii_eq (s : Units) :
    encodeBasestringAscii (codePoints s) = 34 :: s.flatMap Json.escapeUnit ++ [34] := by
  have hcodes : ∀ cs : List ℕ, (∀ c ∈ cs, c < 0x110000) →
      cs.flatMap escapeCodePoint = (cs.flatMap unitsOf).flatMap Json.escapeUnit := by
    intro cs hcs
    rw [List.flatMap_assoc]
    exact List.flatMap_congr fun c hc => escapeCodePoint_eq (hcs c hc)
  rw [encodeBasestringAscii, hcodes _ (codePoints_lt s), flatMap_unitsOf_codePoints]

/-- What `json.dumps` joins: strings by code points, dicts by sorted keys. -/
def iterencode : Python.Value → List ℕ :=
  Json.Tree.fold Python.scalarText (fun s => encodeBasestringAscii (codePoints s))
    (fun items => 91 :: [44].intercalate items ++ [93])
    (fun members => 123 :: [44].intercalate ((Json.Tree.sortMembers codePoints members).map fun m =>
      encodeBasestringAscii (codePoints m.1) ++ 58 :: m.2) ++ [125])

/-- **`json.dumps` joins what it renders.** -/
theorem iterencode_eq (v : Python.Value) :
    iterencode v = Json.render Python.scalarText (v.canon codePoints) := by
  induction v using Json.Tree.ind with
  | scalar w => rw [iterencode, Json.Tree.fold_scalar, Json.Tree.canon_scalar, Json.render_scalar]
  | str s =>
      rw [iterencode, Json.Tree.fold_str, Json.Tree.canon_str, Json.render_str,
        encodeBasestringAscii_eq]
  | arr items ih =>
      have hitems := List.map_congr_left ih
      rw [iterencode, Json.Tree.fold_arr, Json.Tree.canon_arr, Json.render_arr, List.map_map,
        ← iterencode, hitems]
      rfl
  | obj members ih =>
      have hmembers : ∀ m ∈ Json.Tree.sortMembers codePoints members,
          encodeBasestringAscii (codePoints m.1) ++ 58 :: iterencode m.2 =
            34 :: m.1.flatMap Json.escapeUnit ++ 34 :: 58 ::
              Json.render Python.scalarText (m.2.canon codePoints) := by
        intro m hm
        rw [ih m ((Json.Tree.mem_sortMembers codePoints members m).mp hm), encodeBasestringAscii_eq]
        simp
      rw [iterencode, Json.Tree.fold_obj, Json.Tree.canon_obj, Json.Tree.sortMembers_map,
        Json.Tree.sortMembers_map, Json.render_obj, List.map_map, List.map_map, ← iterencode]
      exact congrArg (fun parts => 123 :: [44].intercalate parts ++ [125])
        (List.map_congr_left hmembers)

/-! ## Values -/

/-- The integers of the safe range are numbers in JavaScript. -/
theorem ofInt_safe {n : ℤ} (h : n.natAbs < 2 ^ 53) :
    Double.ofInt n = .finite (n < 0) (Binary64.ofNat n.natAbs h) := by
  rw [Double.ofInt, Double.nearest, Binary64.ofRat_natCast n.natAbs h]

/-- An atom is written alike. -/
theorem scalarText_agrees (a : Atom) : Python.scalarText a.python = Js.scalarText a.js := by
  cases a with
  | null => rfl
  | bool b => cases b <;> rfl
  | int n safe =>
      have hn : n.natAbs < 2 ^ 53 := by omega
      have hsign : (decide (n < 0) && decide ((Binary64.ofNat n.natAbs hn).sig ≠ 0)) =
          decide (n < 0) := by
        by_cases hneg : n < 0
        · have hsig : (Binary64.ofNat n.natAbs hn).sig ≠ 0 := by
            intro hzero
            have hval := Binary64.value_ofNat n.natAbs hn
            rw [Binary64.value, hzero, Nat.cast_zero, zero_mul] at hval
            have : n.natAbs = 0 := by exact_mod_cast hval.symm
            omega
          simp [hsig]
        · simp [hneg]
      rw [Atom.python, Atom.js, Python.scalarText, Js.scalarText, ofInt_safe hn, Js.numberText, hsign,
        Js.numberText_natCast (Binary64.value_ofNat n.natAbs hn) hn]
      simp

theorem writable_python (v : Portable) : (toPython v).allScalars Python.writable = true := by
  rw [toPython, Json.Tree.allScalars_mapScalars]
  apply Json.Tree.allScalars_of_forall
  intro a
  cases a with
  | null => rfl
  | bool b => rfl
  | int n safe =>
      have hlen : (natText n.natAbs).length ≤ 4300 :=
        (natText_length_le (by norm_num) (show n.natAbs < 10 ^ 17 by omega)).trans (by norm_num)
      simpa [Atom.python, Python.writable] using hlen

theorem portable_js (v : Portable) : (toJs v).allScalars Js.portable = true := by
  rw [toJs, Json.Tree.allScalars_mapScalars]
  apply Json.Tree.allScalars_of_forall
  intro a
  cases a with
  | null => rfl
  | bool b => rfl
  | int n safe =>
      have hn : n.natAbs < 2 ^ 53 := by omega
      rw [Atom.js, ofInt_safe hn]
      rfl

/-- **Canonical JSON agrees**: on every shared value the three encoders write the same
bytes; strings are escaped and keys compared alike, whatever units they consist of. -/
theorem canonicalJson_agrees :
    (∀ v : Portable, ∃ text, (∀ c ∈ text, c < 128) ∧
      Python.dumps (toPython v) = some (asciiBytes text) ∧ iterencode (toPython v) = text ∧
      Node.canonicalJson (toJs v) = .ok text ∧
      TypeScript.canonicalJsonString (toJs v) = .ok text) ∧
    (∀ s : Units, Node.encodeString s = encodeBasestringAscii (codePoints s) ∧
      TypeScript.encodeString s = encodeBasestringAscii (codePoints s)) ∧
    ∀ a b : Units, Js.compareKeys a b < 0 ↔ codePoints a < codePoints b := by
  refine ⟨?_, ?_, Js.compareKeys_neg⟩
  · intro v
    have htext : Json.render Python.scalarText ((toPython v).canon codePoints) =
        Json.render Js.scalarText ((toJs v).canon codePoints) := by
      rw [toPython, toJs, Json.Tree.canon_mapScalars, Json.Tree.canon_mapScalars,
        Json.render_mapScalars, Json.render_mapScalars]
      simp only [scalarText_agrees]
    have hcanon : ((toPython v).canon codePoints).allScalars Python.writable = true := by
      rw [Json.Tree.allScalars_canon, writable_python]
    refine ⟨Json.render Js.scalarText ((toJs v).canon codePoints), ?_, ?_,
      (iterencode_eq _).trans htext, Node.encode_eq (portable_js v),
      TypeScript.canonicalJsonString_eq (portable_js v)⟩
    · intro c hc
      rw [← htext] at hc
      have hprint := Json.printable_render Python.wordText_of_writable hcanon c hc
      simp only [Json.isPrintable, Bool.and_eq_true, decide_eq_true_eq] at hprint
      omega
    · rw [Python.dumps, if_pos (writable_python v), htext]
  · intro s
    rw [Node.encodeString_eq, TypeScript.encodeString_eq, encodeBasestringAscii_eq]
    exact ⟨rfl, rfl⟩

end SwarmAuth.Interop
