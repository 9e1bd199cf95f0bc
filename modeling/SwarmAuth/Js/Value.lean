import SwarmAuth.Lib.JsonText
import SwarmAuth.Lib.Nearest
import SwarmAuth.Lib.Checks

/-!
# JavaScript values

The values the two JavaScript SDKs handle, and what the language itself gives them:
numbers as text, quoted strings, `JSON.parse`, and the order of keys by code points that
both compare with. An object is the list of its own enumerable properties (a `Date` has
none); a string is its UTF-16 units; an array's absent elements are holes.

## Main definitions

* `Scalar`, `Value`, `Object` — the values.
* `numberText`, `stringifyString` — `String(number)` and `JSON.stringify(string)`.
* `parseJson` — `JSON.parse`.
* `Value.whole` — no array has a hole.
* `compareKeys`, `sortKeys` — the comparison of keys, and a sort by it.
-/
namespace SwarmAuth.Js

/-- The values without parts; `other` is a function, a symbol or a bigint. A `hole` is no value:
it is an element that an array has not, and stands only there. -/
inductive Scalar where
  | null
  | undefined
  | bool (b : Bool)
  | number (d : Double)
  | other
  | hole
  deriving DecidableEq, Repr

/-- A value. -/
abbrev Value := Json.Tree Scalar Units

/-- The own properties of an object. -/
abbrev Object := List (Units × Value)

/-- `null` and `undefined` as values. -/
abbrev Value.null : Value := .scalar .null
abbrev Value.undefined : Value := .scalar .undefined

/-- An element that an array has not. -/
abbrev Value.hole : Value := .scalar .hole

/-- What an array has at the place of an element: `undefined` for a hole. -/
def Value.element : Value → Value
  | .scalar .hole => .undefined
  | value => value

/-- No array in the value has a hole. -/
def Value.whole (v : Value) : Bool := v.allScalars (· ≠ .hole)

/-- `value == null`. -/
def Value.isNullish (v : Value) : Bool := v = .null || v = .undefined

/-- `object[key]`, of a key no prototype has. -/
def Object.get (o : Object) (key : Units) : Value := (o.lookup key).getD .undefined

/-- `Object.hasOwn(object, key)`. -/
def Object.hasOwn (o : Object) (key : Units) : Bool := (o.lookup key).isSome

/-- What a call can throw: a `SwarmAuthError` with its code, or an error of the language. -/
inductive Thrown where
  | swarmAuth (code : String) (message : String)
  | error (message : String)
  | typeError (message : String)
  | rangeError (message : String)
  deriving DecidableEq, Repr

/-- A call's outcome. -/
abbrev Outcome := Except Thrown

/-! ## Numbers -/

/-- The digits of a finite number: an exponent from `1e21` on and below `1e-6`. -/
def numberLayout (d : Decimal) : Layout :=
  let point := (natText d.coeff).length + d.exp
  if -6 < point ∧ point ≤ 21 then positional [] d else scientific 1 d

/-- `String(value)`. Zero has no sign. -/
def numberText : Double → List ℕ
  | .finite neg mag => (numberLayout mag.shortest).text (neg && mag.sig ≠ 0)
  | .inf neg => Json.codes (if neg then "-Infinity" else "Infinity")
  | .nan => Json.codes "NaN"

/-- `Number.isFinite(value)`. -/
def isFinite : Double → Bool
  | .finite _ _ => true
  | _ => false

theorem isFinite_eq (d : Double) : isFinite d = d.value?.isSome := by cases d <;> rfl

/-- `Number.isInteger(value)`. -/
def isInteger (d : Double) : Bool := d.value?.any fun q : ℚ => q.den = 1

/-- `Number.isSafeInteger(value)`. -/
def isSafeInteger (d : Double) : Bool := d.value?.any fun q : ℚ => q.den = 1 && |q| ≤ 2 ^ 53 - 1

/-- `a < b` of numbers. -/
def lessThan (a b : Double) : Bool :=
  match a.denote, b.denote with
  | some (.inl x), some (.inl y) => x < y
  | some (.inl _), some (.inr neg) => !neg
  | some (.inr neg), some (.inl _) => neg
  | some (.inr m), some (.inr n) => m && !n
  | _, _ => false

/-- `a + b` of finite numbers. -/
def plus (a b : Double) : Double :=
  match a.value?, b.value? with
  | some x, some y => nearestTo (x + y)
  | _, _ => .nan

/-- `a - b` of finite numbers. -/
def minus (a b : Double) : Double :=
  match a.value?, b.value? with
  | some x, some y => nearestTo (x - y)
  | _, _ => .nan

/-- The text of a scalar that JSON has; of a hole, what `join` writes. -/
def scalarText : Scalar → List ℕ
  | .null => Json.codes "null"
  | .bool true => Json.codes "true"
  | .bool false => Json.codes "false"
  | .number d => numberText d
  | .undefined | .other | .hole => []

/-- The scalars JSON has. -/
def portable : Scalar → Bool
  | .null | .bool _ => true
  | .number d => isFinite d
  | .undefined | .other | .hole => false

theorem numberLayout_valid (x : Binary64) : (numberLayout x.shortest).Valid := by
  simp only [numberLayout]
  by_cases h0 : x.shortest.coeff = 0
  · have hz := Binary64.shortest_eq_zero h0
    rw [hz, if_pos (by decide)]
    exact positional_valid _ _ (by simp) (by simp)
  · split_ifs
    · exact positional_valid _ _ (by simp) fun h => absurd h h0
    · exact scientific_valid 1 h0

theorem value_numberLayout (d : Decimal) : (numberLayout d).decimal.value = d.value := by
  simp only [numberLayout]
  split_ifs
  · exact value_positional _ _ rfl
  · exact value_scientific 1 d

/-- An integer below `2 ^ 53` is written digit by digit. -/
theorem numberText_natCast {x : Binary64} {n : ℕ} (hx : x.value = n) (hn : n < 2 ^ 53) (neg : Bool) :
    (numberLayout x.shortest).text neg = (if neg then [45] else []) ++ natText n := by
  obtain ⟨c, e, hd, hval, h0⟩ := Binary64.shortest_natCast hx hn
  have hlen : (natText c).length + e ≤ 21 := by
    by_cases hc : c = 0
    · rw [hc, h0 hc]
      decide
    · have htext := congrArg List.length (natText_mul_pow hc e)
      rw [hval, List.length_append, List.length_replicate] at htext
      rw [← htext]
      exact (natText_length_le (by norm_num) (hn.trans (by norm_num : 2 ^ 53 < 10 ^ 17))).trans
        (by norm_num)
  have hpos := natText_length_pos c
  rw [numberLayout, hd]
  simp only
  rw [if_pos (by omega), positional_whole [] h0, hval]
  simp [Layout.text]

/-! ## Strings -/

/-- A code point inside `JSON.stringify(text)`: unpaired surrogates are escaped, others above
the controls stand for themselves. -/
def quoteCode (c : ℕ) : List ℕ :=
  if c = 8 then [92, 98]
  else if c = 9 then [92, 116]
  else if c = 10 then [92, 110]
  else if c = 12 then [92, 102]
  else if c = 13 then [92, 114]
  else if c = 34 then [92, 34]
  else if c = 92 then [92, 92]
  else if c < 32 ∨ 0xD800 ≤ c ∧ c < 0xE000 then Json.hexEscape c
  else (unitsOf c).map UInt16.toNat

/-- `JSON.stringify(text)`, as UTF-16 units. -/
def stringifyString (s : Units) : List ℕ := 34 :: (codePoints s).flatMap quoteCode ++ [34]

/-! ## `JSON.parse` -/

/-- What a bare word denotes to `JSON.parse`: a number is the nearest one. -/
def classify (text : List ℕ) : Option Scalar :=
  if text = Json.codes "null" then some .null
  else if text = Json.codes "true" then some (.bool true)
  else if text = Json.codes "false" then some (.bool false)
  else (readNumeral text).map fun n => .number (.nearest n.neg n.mag.value)

/-- `JSON.parse`: the last of repeated keys wins. -/
def parseJson (text : List ℕ) : Option Value := (Json.parse classify text).map Json.Tree.lastWins

theorem classify_of_numeral {text : List ℕ} {n : Numeral} (h : readNumeral text = some n) :
    classify text = some (.number (.nearest n.neg n.mag.value)) := by
  have hword : ∀ s : String, readNumeral (Json.codes s) = none → text ≠ Json.codes s := by
    intro s hs heq
    rw [heq, hs] at h
    exact absurd h nofun
  rw [classify, if_neg (hword "null" (by decide)), if_neg (hword "true" (by decide)),
    if_neg (hword "false" (by decide)), h]
  rfl

/-! ## Keys -/

/-- The loop of the two comparisons, over code points. -/
def compareCodes : List ℕ → List ℕ → ℤ
  | l :: left, r :: right => if l ≠ r then l - r else compareCodes left right
  | left, right => left.length - right.length

/-- The comparison of two keys. -/
def compareKeys (a b : Units) : ℤ := compareCodes (codePoints a) (codePoints b)

/-- `keys.sort(compareKeys)`, each key with what belongs to it. -/
def sortKeys {α : Type} (ms : List (Units × α)) : List (Units × α) :=
  ms.insertionSort fun a b => compareKeys a.1 b.1 ≤ 0

theorem compareCodes_pos (left right : List ℕ) : 0 < compareCodes left right ↔ right < left := by
  induction left generalizing right with
  | nil =>
      cases right with
      | nil => simp [compareCodes]
      | cons r right =>
          have hlen : ¬ 0 < compareCodes [] (r :: right) := by
            simp only [compareCodes, List.length_nil, List.length_cons]
            omega
          exact iff_of_false hlen (List.not_lt_nil _)
  | cons l left ih =>
      cases right with
      | nil =>
          have hlen : 0 < compareCodes (l :: left) [] := by
            simp only [compareCodes, List.length_nil, List.length_cons]
            omega
          exact iff_of_true hlen (List.nil_lt_cons _ _)
      | cons r right =>
          simp only [compareCodes, List.cons_lt_cons_iff]
          by_cases h : l = r
          · subst h
            rw [if_neg (not_not.mpr rfl), ih]
            simp
          · rw [if_pos h]
            have hne : r ≠ l := fun heq => h heq.symm
            simp only [hne, false_and, or_false]
            omega

theorem compareCodes_swap (left right : List ℕ) :
    compareCodes right left = -compareCodes left right := by
  induction left generalizing right with
  | nil => cases right <;> simp [compareCodes]
  | cons l left ih =>
      cases right with
      | nil => simp [compareCodes]
      | cons r right =>
          simp only [compareCodes]
          by_cases h : l = r
          · subst h
            rw [if_neg (not_not.mpr rfl), if_neg (not_not.mpr rfl), ih]
          · rw [if_pos h, if_pos fun heq => h heq.symm]
            omega

theorem compareKeys_neg (a b : Units) : compareKeys a b < 0 ↔ codePoints a < codePoints b := by
  rw [compareKeys, ← compareCodes_pos, compareCodes_swap (codePoints a), neg_pos]

/-- **Keys are compared by their code points.** -/
theorem compareKeys_nonpos (a b : Units) : compareKeys a b ≤ 0 ↔ codePoints a ≤ codePoints b := by
  rw [← not_lt, ← not_lt, compareKeys, compareCodes_pos]

theorem sortKeys_eq {α : Type} (ms : List (Units × α)) :
    sortKeys ms = Json.Tree.sortMembers codePoints ms := by
  rw [sortKeys, Json.Tree.sortMembers]
  congr! 3 with a b
  exact compareKeys_nonpos a.1 b.1

/-! ## Numbers that are integers -/

/-- Comparison of numbers is that of their values. -/
theorem lessThan_value {a b : Double} {x y : ℚ} (ha : a.value? = some x) (hb : b.value? = some y) :
    lessThan a b = decide (x < y) := by
  cases a <;> cases b <;> simp_all [lessThan, Double.value?, Double.denote]

theorem isSafeInteger_value {d : Double} {n : ℤ} (hd : d.value? = some (n : ℚ)) :
    isSafeInteger d = decide (|n| ≤ 2 ^ 53 - 1) := by
  have hcast : |(n : ℚ)| ≤ 2 ^ 53 - 1 ↔ |n| ≤ 2 ^ 53 - 1 := by exact_mod_cast Iff.rfl
  simp [isSafeInteger, hd, hcast]

theorem isInteger_value {d : Double} {n : ℤ} (hd : d.value? = some (n : ℚ)) : isInteger d = true := by
  simp [isInteger, hd]

/-- The integer a number is. -/
def intOf (d : Double) : Option ℤ := d.value?.bind fun q => if q.den = 1 then some q.num else none

theorem intOf_value {d : Double} {n : ℤ} (hd : d.value? = some (n : ℚ)) : intOf d = some n := by
  simp [intOf, hd]

/-- **A safe integer is an integer.** -/
theorem exists_int_of_safe {d : Double} (h : isSafeInteger d = true) :
    ∃ n : ℤ, d.value? = some (n : ℚ) ∧ |n| < 2 ^ 53 := by
  obtain ⟨q, hq, hsafe⟩ := (Option.any_eq_true _ _).mp h
  obtain ⟨hden, habs⟩ := by simpa using hsafe
  have hint : (q.num : ℚ) = q := Rat.coe_int_num_of_den_eq_one hden
  refine ⟨q.num, by rw [hint]; exact hq, ?_⟩
  rw [← hint] at habs
  have habs' : |q.num| ≤ 2 ^ 53 - 1 := by exact_mod_cast habs
  omega

theorem isFinite_value {d : Double} {q : ℚ} (hd : d.value? = some q) : isFinite d = true := by
  cases d with
  | finite neg mag => rfl
  | inf neg => exact nomatch hd
  | nan => exact nomatch hd

end SwarmAuth.Js
