import SwarmAuth.Lib.JsonText
import SwarmAuth.Lib.Numeral
import SwarmAuth.Lib.Checks

/-!
# JSON values in Go

The values `encoding/json` decodes with `UseNumber`, and what `token.go` asks of them. A
string is its octets, a number its literal, a map the list of its members without
repeated keys; `nil` is the value of an absent key.

## Main definitions

* `Scalar`, `Value`, `Map` — the values.
* `object` — the decoder, of one object and no more.
* `integer`, `rational` — `strconv` and `math/big` on number literals.
* `validJSON`, `equalJSON`, `marshal` — checks, comparison and encoding.
-/
namespace SwarmAuth.Go

/-- The octets of an ASCII literal. -/
def ascii (s : String) : Bytes := asciiBytes (Json.codes s)

instance : Coe String Bytes := ⟨ascii⟩

/-- `nil`, a `bool` or a `json.Number`. -/
inductive Scalar where
  | nil
  | bool (b : Bool)
  | number (text : List ℕ)
  deriving DecidableEq, Repr

/-- An `any` that was decoded. -/
abbrev Value := Json.Tree Scalar Bytes

/-- A `map[string]any`. -/
abbrev Map := List (Bytes × Value)

/-- `nil` as a value. -/
abbrev Value.nil : Value := .scalar .nil

/-- `m[key]`, with `present`. -/
def Map.get? (m : Map) (key : Bytes) : Option Value := m.lookup key

/-- `m[key]`. -/
def Map.get (m : Map) (key : Bytes) : Value := (m.get? key).getD .nil

/-- An `error`: an `*Error` with its code, or any other. -/
inductive Err where
  | failure (code message : String)
  | new (text : String)
  deriving DecidableEq, Repr

/-- A call's outcome. -/
abbrev Outcome := Except Err

/-- `failure("MALFORMED_TOKEN", message)`. -/
def malformed (message : String) : Err := .failure "MALFORMED_TOKEN" message

/-! ## Decoding -/

/-- What a bare word denotes: a number is kept as it is written. -/
def classify (text : List ℕ) : Option Scalar :=
  if text = Json.codes "null" then some .nil
  else if text = Json.codes "true" then some (.bool true)
  else if text = Json.codes "false" then some (.bool false)
  else if (readNumeral text).isSome then some (.number text)
  else none

/-- The octets of a string literal: an unpaired surrogate is replaced by U+FFFD. -/
def unquote (s : Units) : Bytes :=
  utf8Encode ((codePoints s).map fun c => if 0xD800 ≤ c ∧ c < 0xE000 then 0xFFFD else c)

/-- How deep the decoder follows arrays and objects. -/
def maxNestingDepth : ℕ := 10000

/-- `decoder.Decode` of a text that is one value: the last of repeated keys wins. -/
def decodeValue (text : List ℕ) : Option Value :=
  (Json.parse classify text).bind fun t =>
    if t.depth ≤ maxNestingDepth then some (t.mapStrs unquote).lastWins else none

/-- `decoder.Decode(&value)` finds an object at the start of the text. -/
def startsObject (text : List ℕ) : Bool :=
  (List.range text.length).any fun k =>
    match decodeValue (text.take k) with
    | some (.obj _) => true
    | _ => false

/-- `object`. -/
def object (data : Bytes) : Outcome Map :=
  match utf8Decode false data with
  | none => .error (malformed "Invalid UTF-8")
  | some text =>
      match decodeValue text with
      | some (.obj value) => .ok value
      | some _ => .error (malformed "Expected JSON object")
      | none =>
          if startsObject text then .error (malformed "Trailing JSON data")
          else .error (malformed "Expected JSON object")

/-- `fields`. -/
def fields (object : Map) (allowed : List Bytes) : Bool := object.all fun m => m.1 ∈ allowed

/-! ## Fields -/

/-- `text`: a non-empty string. -/
def text : Value → Option Bytes
  | .str s => if s = [] then none else some s
  | _ => none

/-- `maxSafe`. -/
def maxSafe : ℤ := 2 ^ 53 - 1

/-- `strconv.ParseInt(text, 10, 64)` of a number literal. -/
def parseInt (text : List ℕ) : Option ℤ :=
  (readNumeral text).bind fun n =>
    let value : ℤ := if n.neg then -n.mag.coeff else n.mag.coeff
    if n.integral ∧ -2 ^ 63 ≤ value ∧ value < 2 ^ 63 then some value else none

/-- `integer`. -/
def integer : Value → Option ℤ
  | .scalar (.number text) =>
      match parseInt text with
      | some parsed => if -maxSafe ≤ parsed ∧ parsed ≤ maxSafe then some parsed else none
      | none => none
  | _ => none

/-- `strconv.ParseFloat(text, 64)` of a number literal; `none` is out of range. -/
def parseFloat (text : List ℕ) : Option Double :=
  (readNumeral text).bind fun n =>
    match Double.nearest n.neg n.mag.value with
    | .finite neg mag => some (.finite neg mag)
    | _ => none

/-- The exponent of a number literal. -/
def exponentPart (text : List ℕ) : Option ℤ :=
  readExponent (text.dropWhile fun c => c ≠ 101 ∧ c ≠ 69)

/-- `new(big.Rat).SetString(text)` of a number literal: an exponent must be an `int64`, and
no power of ten beyond the millionth is computed. -/
def setString (text : List ℕ) : Option ℚ :=
  (readNumeral text).bind fun n =>
    if ¬ (exponentPart text).any fun e => -2 ^ 63 ≤ e ∧ e < 2 ^ 63 then none
    else if n.mag.coeff = 0 then some 0
    else if n.mag.exp.natAbs ≤ 1000000 then some (if n.neg then -n.mag.value else n.mag.value)
    else none

/-- `rational`. -/
def rational : Value → Option ℚ
  | .scalar (.number text) =>
      match parseFloat text with
      | some _ => setString text
      | none => none
  | _ => none

/-- `validJSON` of a value without parts. -/
def validScalar : Scalar → Bool
  | .number text =>
      match rational (.scalar (.number text)) with
      | some number => number.den ≠ 1 || number.num.natAbs ≤ maxSafe
      | none => false
  | _ => true

/-- `validJSON`. -/
def validJSON (value : Value) : Bool := value.allScalars validScalar

/-! ## Comparison -/

/-- `equalJSON` of two numbers. -/
def equalNumber (a b : List ℕ) : Bool :=
  match rational (.scalar (.number a)), rational (.scalar (.number b)) with
  | some x, some y => x = y
  | _, _ => false

mutual
/-- `equalJSON`. -/
def equalJSON : Value → Value → Bool
  | .scalar (.number a), .scalar (.number b) => equalNumber a b
  | .scalar .nil, .scalar .nil => true
  | .scalar (.bool a), .scalar (.bool b) => a = b
  | .str a, .str b => a = b
  | .arr left, .arr right => left.length = right.length && equalItems left right
  | .obj left, .obj right => left.length = right.length && equalMembers left right
  | _, _ => false
/-- `equalJSON(left[i], right[i])` for all `i`. -/
def equalItems : List Value → List Value → Bool
  | a :: left, b :: right => equalJSON a b && equalItems left right
  | _, _ => true
/-- `equalJSON(value, right[key])` for all members of `left`. -/
def equalMembers : Map → Map → Bool
  | [], _ => true
  | (key, a) :: left, right =>
      (match Map.get? right key with
        | some b => equalJSON a b
        | none => false) && equalMembers left right
end

/-! ## Encoding -/

/-- A code point inside an encoded string: HTML's special characters and the two line
separators are escaped. -/
def quoteRune (c : ℕ) : List ℕ :=
  if c = 34 ∨ c = 92 then [92, c]
  else if c = 8 then [92, 98]
  else if c = 9 then [92, 116]
  else if c = 10 then [92, 110]
  else if c = 12 then [92, 102]
  else if c = 13 then [92, 114]
  else if c < 32 ∨ c = 38 ∨ c = 60 ∨ c = 62 ∨ c = 0x2028 ∨ c = 0x2029 then Json.hexEscape c
  else [c]

/-- An encoded string; the strings of decoded values are UTF-8. -/
def quote (s : Bytes) : List ℕ := 34 :: ((utf8Decode false s).getD []).flatMap quoteRune ++ [34]

/-- The text of a value without parts. -/
def scalarText : Scalar → List ℕ
  | .nil => Json.codes "null"
  | .bool true => Json.codes "true"
  | .bool false => Json.codes "false"
  | .number text => text

/-- The text of a value, the members of maps by their keys. -/
def marshalText : Value → List ℕ :=
  Json.Tree.fold scalarText quote (fun items => 91 :: [44].intercalate items ++ [93])
    fun members => 123 :: [44].intercalate ((Json.Tree.sortMembers (List.map UInt8.toNat) members).map fun m =>
      quote m.1 ++ 58 :: m.2) ++ [125]

/-- `json.Marshal` of a decoded value. -/
def marshal (value : Value) : Bytes := utf8Encode (marshalText value)

end SwarmAuth.Go
