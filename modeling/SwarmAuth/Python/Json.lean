import SwarmAuth.Lib.JsonText
import SwarmAuth.Lib.Numeral

/-!
# JSON values in Python

The values `json.loads` delivers and `json.dumps` writes, and `json_value_equal`. A
`dict` is the list of its members in insertion order, a `str` its UTF-16 units: every
`str` except those in which a high surrogate code point stands directly before a low
one, which no JSON text spells and a pass through JSON would join.

## Main definitions

* `Scalar`, `Value`, `Dict` — the values.
* `jsonValueEqual` — `json_value_equal`, an equivalence that keeps `True` and `1` apart.
* `loads`, `dumps` — the `json` module, on octets and with sorted keys.
* `loads_dumps` — what is dumped is loaded, its members in sorted order.
-/
namespace SwarmAuth.Python

/-- `None`, a `bool`, an `int` or a `float`. -/
inductive Scalar where
  | none
  | bool (b : Bool)
  | int (n : ℤ)
  | float (d : Double)
  deriving DecidableEq, Repr

/-- A value built from JSON types. -/
abbrev Value := Json.Tree Scalar Units

/-- A `dict` with `str` keys. -/
abbrev Dict := List (Units × Value)

/-- `None` as a value. -/
abbrev Value.none : Value := .scalar .none

/-- `d.get(key)`, absent when the key is. -/
def Dict.get? (d : Dict) (key : Units) : Option Value := d.lookup key

/-- `key in d`. -/
def Dict.has (d : Dict) (key : Units) : Bool := (d.get? key).isSome

theorem Dict.mem_of_get? {d : Dict} {key : Units} {v : Value} (h : d.get? key = some v) :
    (key, v) ∈ d := by
  induction d with
  | nil => simp [get?] at h
  | cons m d ih =>
      obtain ⟨k, t⟩ := m
      by_cases hk : key = k
      · subst hk
        simp only [get?, List.lookup_cons, beq_self_eq_true, Option.some.injEq] at h
        subst h
        exact List.mem_cons_self
      · have hbeq : (key == k) = false := by simpa using hk
        simp only [get?, List.lookup_cons, hbeq] at h
        exact List.mem_cons_of_mem _ (ih h)

theorem Dict.get?_of_mem {d : Dict} (hd : (d.map Prod.fst).Nodup) {key : Units} {v : Value}
    (h : (key, v) ∈ d) : d.get? key = some v := by
  induction d with
  | nil => simp at h
  | cons m d ih =>
      obtain ⟨k, t⟩ := m
      rw [List.map_cons, List.nodup_cons] at hd
      rcases List.mem_cons.mp h with heq | hmem
      · obtain ⟨rfl, rfl⟩ := Prod.mk.inj heq
        simp [get?]
      · have hne : key ≠ k := fun hk => hd.1 (List.mem_map.mpr ⟨_, hmem, hk⟩)
        have hbeq : (key == k) = false := by simpa using hne
        simpa [get?, List.lookup_cons, hbeq] using ih hd.2 hmem

/-! ## Equality -/

/-- What numeric comparison sees of a scalar. -/
def Scalar.denote : Scalar → Option (ℚ ⊕ Bool)
  | .int n => some (.inl n)
  | .float d => d.denote
  | _ => Option.none

/-- `json_value_equal` on scalars: bools equal only bools, numbers by exact value, NaN
equals nothing. -/
def scalarEqual : Scalar → Scalar → Bool
  | .bool a, .bool b => a = b
  | .bool _, _ => false
  | _, .bool _ => false
  | .none, .none => true
  | .none, _ => false
  | _, .none => false
  | a, b => a.denote = b.denote && a.denote.isSome

mutual
/-- Structural JSON equality, without Python's `True == 1` coercion. -/
def jsonValueEqual : Value → Value → Bool
  | .scalar a, .scalar b => scalarEqual a b
  | .str a, .str b => a = b
  | .obj left, .obj right =>
      left.all (fun m => Dict.has right m.1) && right.all (fun m => Dict.has left m.1) &&
        membersEqual left right
  | .arr left, .arr right => itemsEqual left right
  | _, _ => false
/-- `all(json_value_equal(a, b) for a, b in zip(left, right, strict=True))`. -/
def itemsEqual : List Value → List Value → Bool
  | [], [] => true
  | a :: left, b :: right => jsonValueEqual a b && itemsEqual left right
  | _, _ => false
/-- `all(json_value_equal(left[key], right[key]) for key in left)`. -/
def membersEqual : Dict → Dict → Bool
  | [], _ => true
  | (key, a) :: left, right =>
      (match Dict.get? right key with
        | some b => jsonValueEqual a b
        | Option.none => false) && membersEqual left right
end

theorem scalarEqual_trans {a b c : Scalar} (hab : scalarEqual a b = true)
    (hbc : scalarEqual b c = true) : scalarEqual a c = true := by
  have hnum : ∀ {x y z : Option (ℚ ⊕ Bool)}, (decide (x = y) && x.isSome) = true →
      (decide (y = z) && y.isSome) = true → (decide (x = z) && x.isSome) = true := by
    intro x y z hxy hyz
    simp only [Bool.and_eq_true, decide_eq_true_eq] at hxy hyz ⊢
    exact ⟨hxy.1.trans hyz.1, hxy.2⟩
  cases a <;> cases b <;> simp only [scalarEqual, Bool.false_eq_true] at hab <;>
    cases c <;> simp only [scalarEqual, Bool.false_eq_true] at hbc ⊢ <;>
    first
      | exact hnum hab hbc
      | (simp only [decide_eq_true_eq] at hab hbc ⊢; exact hab.trans hbc)

theorem Dict.has_iff {d : Dict} {key : Units} : d.has key = true ↔ key ∈ d.map Prod.fst := by
  induction d with
  | nil => simp [has, get?]
  | cons m d ih =>
      obtain ⟨k, t⟩ := m
      by_cases hk : key = k
      · simp [has, get?, hk]
      · have hbeq : (key == k) = false := by simpa using hk
        simp only [has, get?, List.lookup_cons, hbeq] at ih ⊢
        rw [ih]
        simp [hk]

theorem itemsEqual_iff {left right : List Value} :
    itemsEqual left right = true ↔ List.Forall₂ (fun a b => jsonValueEqual a b = true) left right := by
  induction left generalizing right with
  | nil => cases right <;> simp [itemsEqual]
  | cons a left ih =>
      cases right with
      | nil => simp [itemsEqual]
      | cons b right => rw [itemsEqual, Bool.and_eq_true, ih, List.forall₂_cons]

theorem membersEqual_iff {left right : Dict} :
    membersEqual left right = true ↔
      ∀ m ∈ left, ∃ b, right.get? m.1 = some b ∧ jsonValueEqual m.2 b = true := by
  induction left with
  | nil => simp [membersEqual]
  | cons m left ih =>
      obtain ⟨k, a⟩ := m
      rw [membersEqual, Bool.and_eq_true, ih, List.forall_mem_cons]
      refine and_congr_left fun _ => ?_
      cases right.get? k <;> simp

/-- Dicts are equal when they have the same keys, with equal values. -/
theorem jsonValueEqual_obj {left right : Dict} :
    jsonValueEqual (.obj left) (.obj right) = true ↔
      (∀ m ∈ right, m.1 ∈ left.map Prod.fst) ∧
        ∀ m ∈ left, ∃ b, right.get? m.1 = some b ∧ jsonValueEqual m.2 b = true := by
  rw [jsonValueEqual, Bool.and_eq_true, Bool.and_eq_true, membersEqual_iff, List.all_eq_true,
    List.all_eq_true]
  constructor
  · rintro ⟨⟨-, hright⟩, hleft⟩
    exact ⟨fun m hm => Dict.has_iff.mp (hright m hm), hleft⟩
  · rintro ⟨hright, hleft⟩
    refine ⟨⟨fun m hm => ?_, fun m hm => Dict.has_iff.mpr (hright m hm)⟩, hleft⟩
    obtain ⟨b, hb, -⟩ := hleft m hm
    simp [Dict.has, hb]

/-- **JSON equality is transitive.** -/
theorem jsonValueEqual_trans {a b c : Value} (hab : jsonValueEqual a b = true)
    (hbc : jsonValueEqual b c = true) : jsonValueEqual a c = true := by
  induction a using Json.Tree.ind generalizing b c with
  | scalar x =>
      cases b <;> simp only [jsonValueEqual, Bool.false_eq_true] at hab
      cases c <;> simp only [jsonValueEqual, Bool.false_eq_true] at hbc ⊢
      exact scalarEqual_trans hab hbc
  | str x =>
      cases b <;> simp only [jsonValueEqual, Bool.false_eq_true, decide_eq_true_eq] at hab
      cases c <;> simp only [jsonValueEqual, Bool.false_eq_true, decide_eq_true_eq] at hbc ⊢
      exact hab.trans hbc
  | arr items ih =>
      cases b with
      | arr bs =>
          cases c with
          | arr cs =>
              rw [jsonValueEqual, itemsEqual_iff] at hab hbc ⊢
              induction items generalizing bs cs with
              | nil =>
                  cases hab
                  cases hbc
                  exact .nil
              | cons x xs ihx =>
                  obtain _ | ⟨hx, hxs⟩ := hab
                  obtain _ | ⟨hy, hys⟩ := hbc
                  exact .cons (ih x List.mem_cons_self hx hy)
                    (ihx (fun t ht => ih t (List.mem_cons_of_mem x ht)) _ hxs _ hys)
          | _ => simp [jsonValueEqual] at hbc
      | _ => simp [jsonValueEqual] at hab
  | obj members ih =>
      cases b with
      | obj ns =>
          cases c with
          | obj os =>
              rw [jsonValueEqual_obj] at hab hbc ⊢
              refine ⟨fun m hm => ?_, fun m hm => ?_⟩
              · obtain ⟨n, hn, hkey⟩ := List.mem_map.mp (hbc.1 m hm)
                rw [← hkey]
                exact hab.1 n hn
              · obtain ⟨u, hu, hmu⟩ := hab.2 m hm
                obtain ⟨v, hv, huv⟩ := hbc.2 _ (Dict.mem_of_get? hu)
                exact ⟨v, hv, ih m hm hmu huv⟩
          | _ => simp [jsonValueEqual] at hbc
      | _ => simp [jsonValueEqual] at hab

theorem forall₂_congr_mem {α β : Type} {R S : α → β → Prop} {l : List α} {m : List β}
    (h : ∀ a ∈ l, ∀ b, R a b ↔ S a b) : List.Forall₂ R l m ↔ List.Forall₂ S l m := by
  induction l generalizing m with
  | nil => cases m <;> simp
  | cons a l ih =>
      cases m with
      | nil => simp
      | cons b m =>
          rw [List.forall₂_cons, List.forall₂_cons, h a List.mem_cons_self,
            ih fun c hc => h c (List.mem_cons_of_mem a hc)]

/-- Equality does not see the order of the members on its left. -/
theorem jsonValueEqual_canon {K : Type} [LinearOrder K] (rank : Units → K) (a b : Value) :
    jsonValueEqual (a.canon rank) b = jsonValueEqual a b := by
  rw [Bool.eq_iff_iff]
  induction a using Json.Tree.ind generalizing b with
  | scalar x => rfl
  | str x => rfl
  | arr items ih =>
      cases b with
      | arr bs =>
          rw [Json.Tree.canon_arr, jsonValueEqual, jsonValueEqual, itemsEqual_iff, itemsEqual_iff,
            List.forall₂_map_left_iff]
          exact forall₂_congr_mem ih
      | _ => simp [jsonValueEqual]
  | obj members ih =>
      cases b with
      | obj ns =>
          have hperm := Json.Tree.sortMembers_perm rank
            (members.map fun m => (m.1, m.2.canon rank))
          have hkeys : ∀ k, k ∈ (Json.Tree.sortMembers rank
              (members.map fun m => (m.1, m.2.canon rank))).map Prod.fst ↔
                k ∈ members.map Prod.fst := by
            intro k
            rw [(hperm.map Prod.fst).mem_iff, List.map_map]
            rfl
          rw [Json.Tree.canon_obj, jsonValueEqual_obj, jsonValueEqual_obj]
          refine and_congr (forall₂_congr fun m _ => hkeys m.1) ?_
          simp only [Json.Tree.mem_sortMembers, List.mem_map, forall_exists_index, and_imp,
            forall_apply_eq_imp_iff₂]
          exact forall₂_congr fun m hm => exists_congr fun b => and_congr_right fun _ => ih m hm b
      | _ => simp [jsonValueEqual]

/-! ## Reading -/

/-- What a bare word denotes to `json.loads`; integers are limited to 4300 digits. -/
def classify (text : List ℕ) : Option Scalar :=
  if text = Json.codes "null" then some .none
  else if text = Json.codes "true" then some (.bool true)
  else if text = Json.codes "false" then some (.bool false)
  else if text = Json.codes "NaN" then some (.float .nan)
  else if text = Json.codes "Infinity" then some (.float (.inf false))
  else if text = Json.codes "-Infinity" then some (.float (.inf true))
  else (readNumeral text).bind fun n =>
    if n.integral then
      if (natText n.mag.coeff).length ≤ 4300 then
        some (.int (if n.neg then -n.mag.coeff else n.mag.coeff))
      else Option.none
    else some (.float (.nearest n.neg n.mag.value))

/-- The encodings `json.loads` tells apart. -/
inductive Encoding where
  | utf8 | utf8Sig | utf16 | utf16be | utf16le | utf32 | utf32be | utf32le
  deriving DecidableEq, Repr

/-- `json.detect_encoding`: a byte order mark, else where the zero octets stand. -/
def detectEncoding (bs : Bytes) : Encoding :=
  if [0, 0, 0xFE, 0xFF] <+: bs ∨ [0xFF, 0xFE, 0, 0] <+: bs then .utf32
  else if [0xFE, 0xFF] <+: bs ∨ [0xFF, 0xFE] <+: bs then .utf16
  else if [0xEF, 0xBB, 0xBF] <+: bs then .utf8Sig
  else match bs with
    | b₀ :: b₁ :: b₂ :: b₃ :: _ =>
        if b₀ = 0 then (if b₁ ≠ 0 then .utf16be else .utf32be)
        else if b₁ = 0 then (if b₂ ≠ 0 ∨ b₃ ≠ 0 then .utf16le else .utf32le)
        else .utf8
    | [b₀, b₁] => if b₀ = 0 then .utf16be else if b₁ = 0 then .utf16le else .utf8
    | _ => .utf8

/-- The code points of octets, surrogates passed. -/
def decodeText (bs : Bytes) : Option (List ℕ) :=
  match detectEncoding bs with
  | .utf8 => utf8Decode true bs
  | .utf8Sig => utf8Decode true (bs.drop 3)
  | .utf16 => (utf16Units (bs.head? = some 0xFE) (bs.drop 2)).map codePoints
  | .utf16be => (utf16Units true bs).map codePoints
  | .utf16le => (utf16Units false bs).map codePoints
  | .utf32 => utf32Codes (bs.head? = some 0) (bs.drop 4)
  | .utf32be => utf32Codes true bs
  | .utf32le => utf32Codes false bs

/-- `json.loads` of octets: the last of repeated keys wins. -/
def loads (bs : Bytes) : Option Value :=
  (decodeText bs).bind fun text => (Json.parse classify text).map Json.Tree.lastWins

/-! ## Writing -/

/-- `repr` of a float: an exponent from `1e16` on and below `1e-4`. -/
def floatLayout (d : Decimal) : Layout :=
  let point := (natText d.coeff).length + d.exp
  if -4 < point ∧ point ≤ 16 then positional [48] d else scientific 2 d

/-- The text of a scalar `dumps` admits. -/
def scalarText : Scalar → List ℕ
  | .none => Json.codes "null"
  | .bool true => Json.codes "true"
  | .bool false => Json.codes "false"
  | .int n => (if n < 0 then [45] else []) ++ natText n.natAbs
  | .float (.finite neg mag) => (floatLayout mag.shortest).text neg
  | .float _ => []

/-- The scalars `dumps` admits: `allow_nan=False`, and integers of at most 4300 digits. -/
def writable : Scalar → Bool
  | .int n => (natText n.natAbs).length ≤ 4300
  | .float (.finite _ _) => true
  | .float _ => false
  | _ => true

/-- `json.dumps` with sorted keys, compact, ASCII; `none` is its `ValueError`. -/
def dumps (v : Value) : Option Bytes :=
  if v.allScalars writable then some (asciiBytes (Json.render scalarText (v.canon codePoints)))
  else Option.none

/-! ### What is dumped is loaded -/

theorem classify_of_numeral {text : List ℕ} {n : Numeral} (h : readNumeral text = some n) :
    classify text = if n.integral then
      if (natText n.mag.coeff).length ≤ 4300 then
        some (.int (if n.neg then -n.mag.coeff else n.mag.coeff))
      else Option.none
    else some (.float (.nearest n.neg n.mag.value)) := by
  have hword : ∀ s : String, readNumeral (Json.codes s) = Option.none → text ≠ Json.codes s := by
    rintro s hs rfl
    rw [hs] at h
    exact absurd h (by simp)
  rw [classify, if_neg (hword "null" (by decide)), if_neg (hword "true" (by decide)),
    if_neg (hword "false" (by decide)), if_neg (hword "NaN" (by decide)),
    if_neg (hword "Infinity" (by decide)), if_neg (hword "-Infinity" (by decide)), h]
  rfl

theorem floatLayout_valid (x : Binary64) : (floatLayout x.shortest).Valid := by
  simp only [floatLayout]
  by_cases h0 : x.shortest.coeff = 0
  · have hz := Binary64.shortest_eq_zero h0
    rw [hz, if_pos (by decide)]
    exact positional_valid _ _ (by simp [isDigit]) (by simp)
  · split_ifs
    · exact positional_valid _ _ (by simp [isDigit]) fun h => absurd h h0
    · exact scientific_valid 2 h0

theorem value_floatLayout (d : Decimal) : (floatLayout d).decimal.value = d.value := by
  simp only [floatLayout]
  split_ifs
  · exact value_positional _ _ rfl
  · exact value_scientific 2 d

/-- Every `repr` of a float has a point or an exponent. -/
theorem floatLayout_not_integral (d : Decimal) :
    ¬ ((floatLayout d).frac = [] ∧ (floatLayout d).exponent = Option.none) := by
  have hpos := natText_length_pos d.coeff
  simp only [floatLayout]
  split_ifs
  · rintro ⟨hfrac, -⟩
    revert hfrac
    simp only [positional]
    split_ifs with hlow hmid
    · simp [natText_ne_nil]
    · simp only [List.drop_eq_nil_iff]
      omega
    · simp
  · rintro ⟨-, hexp⟩
    simp [scientific] at hexp

theorem classify_float (neg : Bool) (x : Binary64) :
    classify ((floatLayout x.shortest).text neg) = some (.float (.finite neg x)) := by
  have hread := readNumeral_text neg (floatLayout_valid x)
  rw [classify_of_numeral hread]
  have hint := floatLayout_not_integral x.shortest
  have hval := value_floatLayout x.shortest
  simp only [hint, decide_false, Bool.false_eq_true, if_false]
  rw [show Decimal.value ⟨_, _⟩ = x.shortest.value from hval, Double.nearest_shortest]

theorem classify_int {n : ℤ} (h : (natText n.natAbs).length ≤ 4300) :
    classify (scalarText (.int n)) = some (.int n) := by
  have hread := readNumeral_natText (n < 0) n.natAbs
  simp only [decide_eq_true_eq] at hread
  rw [scalarText, classify_of_numeral hread, if_pos rfl, if_pos h]
  congr 2
  by_cases hn : n < 0
  · rw [decide_eq_true hn, if_pos rfl]
    show -(n.natAbs : ℤ) = n
    omega
  · rw [decide_eq_false hn, if_neg Bool.false_ne_true]
    show (n.natAbs : ℤ) = n
    omega

theorem isWordCode_of_digit {c : ℕ} (h : isDigit c = true ∨ c ∈ [43, 45, 46, 101]) :
    Json.isWordCode c = true := by
  rcases h with h | h
  · rw [isDigit_iff] at h
    simp [Json.isWordCode, h]
  · simp only [List.mem_cons, List.not_mem_nil, or_false] at h
    rcases h with rfl | rfl | rfl | rfl <;> rfl

/-- Every writable scalar is a word that reads as itself. -/
theorem wordText_of_writable (s : Scalar) (h : writable s = true) :
    Json.WordText classify scalarText s := by
  cases s with
  | none => exact ⟨by decide, by decide, by decide⟩
  | bool b => cases b <;> exact ⟨by decide, by decide, by decide⟩
  | int n =>
      refine ⟨by simp [scalarText, natText_ne_nil], ?_, classify_int (by simpa [writable] using h)⟩
      intro c hc
      rw [scalarText, List.mem_append] at hc
      rcases hc with hc | hc
      · split_ifs at hc <;> simp_all [Json.isWordCode]
      · exact isWordCode_of_digit (Or.inl (isDigit_natText hc))
  | float d =>
      cases d with
      | finite neg mag =>
          exact ⟨Layout.text_ne_nil (floatLayout_valid mag),
            fun c hc => isWordCode_of_digit (Layout.mem_text (floatLayout_valid mag) hc),
            classify_float neg mag⟩
      | _ => simp [writable] at h

/-- Text of printable ASCII is taken for UTF-8. -/
theorem decodeText_ascii {text : List ℕ} (h : ∀ c ∈ text, Json.isPrintable c = true) :
    decodeText (asciiBytes text) = some text := by
  have hbyte : ∀ b ∈ asciiBytes text, b ≠ 0 ∧ b ≠ 0xFE ∧ b ≠ 0xFF ∧ b ≠ 0xEF := by
    intro b hb
    obtain ⟨c, hc, rfl⟩ := List.mem_map.mp hb
    have hprint := h c hc
    simp only [Json.isPrintable, Bool.and_eq_true, decide_eq_true_eq] at hprint
    have hoct : (UInt8.ofNat c).toNat = c := by simp; omega
    refine ⟨?_, ?_, ?_, ?_⟩ <;> intro heq <;> rw [heq] at hoct <;> simp at hoct <;> omega
  have hdetect : detectEncoding (asciiBytes text) = .utf8 := by
    have hfirst : ∀ {b : UInt8} {bs : Bytes}, b :: bs <+: asciiBytes text → b ∈ asciiBytes text :=
      fun hp => hp.subset List.mem_cons_self
    have h32 : ¬ ([0, 0, 0xFE, 0xFF] <+: asciiBytes text ∨ [0xFF, 0xFE, 0, 0] <+: asciiBytes text) := by
      rintro (hp | hp)
      · exact (hbyte _ (hfirst hp)).1 rfl
      · exact (hbyte _ (hfirst hp)).2.2.1 rfl
    have h16 : ¬ ([0xFE, 0xFF] <+: asciiBytes text ∨ [0xFF, 0xFE] <+: asciiBytes text) := by
      rintro (hp | hp)
      · exact (hbyte _ (hfirst hp)).2.1 rfl
      · exact (hbyte _ (hfirst hp)).2.2.1 rfl
    have h8 : ¬ [0xEF, 0xBB, 0xBF] <+: asciiBytes text := fun hp =>
      (hbyte _ (hfirst hp)).2.2.2 rfl
    rw [detectEncoding.eq_def, if_neg h32, if_neg h16, if_neg h8]
    generalize asciiBytes text = bs at hbyte
    split
    · rw [if_neg (hbyte _ (by simp)).1, if_neg (hbyte _ (by simp)).1]
    · rw [if_neg (hbyte _ (by simp)).1, if_neg (hbyte _ (by simp)).1]
    · rfl
  rw [decodeText, hdetect]
  apply utf8Decode_ascii
  intro c hc
  have := h c hc
  simp only [Json.isPrintable, Bool.and_eq_true, decide_eq_true_eq] at this
  omega

/-- **What is dumped is loaded**, every object's members in sorted order. -/
theorem loads_dumps {v : Value} {bs : Bytes} (hv : v.keysNodup = true) (h : dumps v = some bs) :
    loads bs = some (v.canon codePoints) := by
  rw [dumps] at h
  split_ifs at h with hw
  obtain rfl := Option.some.inj h
  have hcanon : (v.canon codePoints).allScalars writable = true := by
    rw [Json.Tree.allScalars_canon, hw]
  have hnodup : (v.canon codePoints).keysNodup = true := by
    rw [Json.Tree.keysNodup_canon, hv]
  rw [loads, decodeText_ascii (Json.printable_render wordText_of_writable hcanon), Option.bind_some,
    Json.parse_render _ writable wordText_of_writable hcanon, Option.map_some,
    Json.Tree.lastWins_of_keysNodup _ hnodup]

end SwarmAuth.Python
