import SwarmAuth.Go.Json
import SwarmAuth.Lib.JsonEquality
import SwarmAuth.Lib.JsonReading

/-!
# Encoding and decoding in Go

`checkPins` compares pins with arguments that were encoded and decoded again. A value the
decoder delivers has UTF-8 strings, number literals, distinct keys and bounded depth; such
a value is encoded to a text that decodes to the value, its members in order.

## Main definitions

* `Decoded` — what decoding establishes.
* `decodeValue_decoded` — it does.
* `object_marshal` — an encoded map decodes to itself, in order.
-/
namespace SwarmAuth.Go

/-- A number literal, or a scalar that has no text of its own. -/
def isLiteral : Scalar → Bool
  | .number text => (readNumeral text).isSome
  | _ => true

/-- The octets are those of code points without surrogates. -/
def isUtf8 (s : Bytes) : Bool :=
  (utf8Decode false s).any fun cs => cs.all isScalarCode && utf8Encode cs = s

/-- What decoding establishes of a value. -/
structure Decoded (v : Value) : Prop where
  keys : v.keysNodup = true
  literals : v.allScalars isLiteral = true
  texts : v.allStrs isUtf8 = true
  depth : v.depth ≤ maxNestingDepth

theorem isUtf8_iff {s : Bytes} :
    isUtf8 s = true ↔ ∃ cs, (∀ c ∈ cs, isScalarCode c = true) ∧ s = utf8Encode cs := by
  rw [isUtf8, Option.any_eq_true]
  simp only [Bool.and_eq_true, List.all_eq_true, decide_eq_true_eq]
  constructor
  · rintro ⟨cs, -, hcs, heq⟩
    exact ⟨cs, hcs, heq.symm⟩
  · rintro ⟨cs, hcs, rfl⟩
    exact ⟨cs, utf8Decode_encode false hcs, hcs, rfl⟩

theorem isUtf8_unquote (s : Units) : isUtf8 (unquote s) = true := by
  refine isUtf8_iff.mpr ⟨_, fun c hc => ?_, rfl⟩
  obtain ⟨d, hd, rfl⟩ := List.mem_map.mp hc
  have hlt := codePoints_lt s d hd
  rw [isScalarCode_iff]
  split_ifs with h
  · omega
  · exact ⟨hlt, h⟩

/-- A text without surrogates is kept. -/
theorem unquote_flatMap {cs : List ℕ} (h : ∀ c ∈ cs, isScalarCode c = true) :
    unquote (cs.flatMap unitsOf) = utf8Encode cs := by
  rw [unquote, codePoints_flatMap_unitsOf h, map_replacement h]

/-! ## What decoding establishes -/

theorem isLiteral_of_classify {text : List ℕ} {w : Scalar} (h : classify text = some w) :
    isLiteral w = true := by
  rw [classify] at h
  split_ifs at h with h1 h2 h3 h4
  · rw [← Option.some.inj h]; rfl
  · rw [← Option.some.inj h]; rfl
  · rw [← Option.some.inj h]; rfl
  · rw [← Option.some.inj h]
    exact h4

/-- **What is decoded** has UTF-8 strings, literals, distinct keys and bounded depth. -/
theorem decodeValue_decoded {text : List ℕ} {v : Value} (h : decodeValue text = some v) :
    Decoded v := by
  obtain ⟨t, ht, h⟩ := Option.bind_eq_some_iff.mp h
  split_ifs at h with hdepth
  rw [← Option.some.inj h]
  refine ⟨Json.Tree.keysNodup_lastWins _, ?_, ?_, ?_⟩
  · apply Json.Tree.allScalars_lastWins
    rw [Json.Tree.allScalars_mapStrs]
    exact Json.allScalars_parse (fun _ _ => isLiteral_of_classify) ht
  · apply Json.Tree.allStrs_lastWins
    rw [Json.Tree.allStrs_mapStrs]
    exact Json.Tree.allStrs_of_forall isUtf8_unquote t
  · exact Json.Tree.depth_lastWins_le ((Json.Tree.depth_mapStrs_le unquote).mpr hdepth)

theorem object_decoded {data : Bytes} {m : Map} (h : object data = .ok m) : Decoded (.obj m) := by
  rw [object] at h
  split at h
  · exact nomatch h
  · split at h
    · rw [← Except.ok.inj h]
      exact decodeValue_decoded ‹_›
    · exact nomatch h
    · split_ifs at h

theorem Decoded.member {m : Map} (h : Decoded (.obj m)) {key : Bytes} {v : Value}
    (hv : Map.get? m key = some v) : Decoded v := by
  obtain ⟨hkeys, hliterals, htexts, hdepth⟩ := h
  rw [Json.Tree.keysNodup_obj, Bool.and_eq_true, decide_eq_true_eq, List.all_eq_true] at hkeys
  rw [Json.Tree.allScalars_obj, List.all_eq_true] at hliterals
  rw [Json.Tree.allStrs_obj, List.all_eq_true] at htexts
  rw [Json.Tree.depth_obj_le] at hdepth
  have hmem : (key, v) ∈ m := (Json.Tree.lookup_eq_some_iff hkeys.1).mp hv
  exact ⟨hkeys.2 _ hmem, hliterals _ hmem, (Bool.and_eq_true_iff.mp (htexts _ hmem)).2,
    (hdepth.2 _ hmem).trans (Nat.sub_le _ _)⟩

/-! ## What is encoded is decoded -/

/-- The units an encoded string is read as. -/
def unitsOfText (s : Bytes) : Units := ((utf8Decode false s).getD []).flatMap unitsOf

theorem unitsOfText_encode {cs : List ℕ} (h : ∀ c ∈ cs, isScalarCode c = true) :
    unitsOfText (utf8Encode cs) = cs.flatMap unitsOf := by
  rw [unitsOfText, utf8Decode_encode false h, Option.getD_some]

/-- An encoded code point is read as it. -/
theorem lexRun_quoteRune {out : List (Json.Token Scalar)} {acc : Units} {c : ℕ} :
    Json.lexRun classify ⟨out, .str acc⟩ (quoteRune c) = some ⟨out, .str (acc ++ unitsOf c)⟩ := by
  rw [quoteRune]
  split_ifs with h34 h8 h9 h10 h12 h13 hhex
  · rcases h34 with rfl | rfl <;> rfl
  · rw [h8]; rfl
  · rw [h9]; rfl
  · rw [h10]; rfl
  · rw [h12]; rfl
  · rw [h13]; rfl
  · have hc : c < 65536 := by omega
    rw [Json.lexRun_hexEscape classify out acc hc, unitsOf, if_pos hc]
  · have h32 : ¬ c < 32 := by omega
    simp [Json.lexStep, not_or.mp h34, h32]

theorem lexRun_quoteRunes (out : List (Json.Token Scalar)) (acc : Units) (cs : List ℕ) :
    Json.lexRun classify ⟨out, .str acc⟩ (cs.flatMap quoteRune) =
      some ⟨out, .str (acc ++ cs.flatMap unitsOf)⟩ := by
  induction cs generalizing acc with
  | nil => simp
  | cons c cs ih =>
      rw [List.flatMap_cons, Json.lexRun_append, lexRun_quoteRune, Option.bind_some, ih]
      simp

/-- An encoded string is read as its units. -/
theorem strText_quote (s : Bytes) : Json.StrText classify (quote s) (unitsOfText s) := by
  intro out
  have hopen : Json.lexStep classify ⟨out, .between⟩ 34 = some ⟨out, .str []⟩ := rfl
  rw [quote, List.cons_append, Json.lexRun_cons, hopen, Option.bind_some, Json.lexRun_append,
    lexRun_quoteRunes]
  rfl

theorem wordText_of_isLiteral (w : Scalar) (h : isLiteral w = true) :
    Json.WordText classify scalarText w := by
  cases w with
  | nil => exact ⟨by decide, by decide, rfl⟩
  | bool b => cases b <;> exact ⟨by decide, by decide, rfl⟩
  | number text =>
      obtain ⟨n, hn⟩ := Option.isSome_iff_exists.mp h
      obtain ⟨hne, hcodes⟩ := readNumeral_codes hn
      refine ⟨hne, fun c hc => Json.isWordCode_of_isNumeralCode (hcodes c hc), ?_⟩
      have hword : ∀ s : String, readNumeral (Json.codes s) = none → text ≠ Json.codes s := by
        intro s hs heq
        rw [heq, hs] at hn
        exact nomatch hn
      rw [scalarText, classify, if_neg (hword "null" (by decide)), if_neg (hword "true" (by decide)),
        if_neg (hword "false" (by decide)), hn]
      rfl

/-- The text of a value is that of its members in order. -/
theorem marshalText_eq (v : Value) :
    marshalText v = Json.write scalarText quote (v.canon (List.map UInt8.toNat)) := by
  induction v using Json.Tree.ind with
  | scalar w => rfl
  | str s => rfl
  | arr items ih =>
      rw [marshalText, Json.Tree.fold_arr, Json.Tree.canon_arr, Json.write_arr, List.map_map]
      congr 3
      exact List.map_congr_left ih
  | obj members ih =>
      rw [marshalText, Json.Tree.fold_obj, Json.Tree.canon_obj, Json.write_obj,
        Json.Tree.sortMembers_map, Json.Tree.sortMembers_map, List.map_map, List.map_map]
      congr 3
      apply List.map_congr_left
      intro m hm
      rw [Json.Tree.mem_sortMembers] at hm
      simp only [Function.comp_apply, ← ih m hm]
      rfl

/-- Units of UTF-8 strings are read as the strings. -/
theorem mapStrs_unquote {v : Value} (h : v.allStrs isUtf8 = true) :
    (v.mapStrs unitsOfText).mapStrs unquote = v := by
  have hone : ∀ s, isUtf8 s = true → unquote (unitsOfText s) = s := by
    intro s hs
    obtain ⟨cs, hcs, rfl⟩ := isUtf8_iff.mp hs
    rw [unitsOfText_encode hcs, unquote_flatMap hcs]
  rw [Json.Tree.mapStrs_mapStrs]
  exact Json.Tree.mapStrs_of_allStrs hone h

theorem isScalarCode_ascii {c : ℕ} (h : Json.isPrintable c = true) : isScalarCode c = true := by
  simp only [Json.isPrintable, Bool.and_eq_true, decide_eq_true_eq] at h
  rw [isScalarCode_iff]
  omega

theorem isScalarCode_quoteRune {c : ℕ} (h : isScalarCode c = true) :
    ∀ d ∈ quoteRune c, isScalarCode d = true := by
  have hhex : ∀ n, isScalarCode (Json.hexDigit (n % 16)) = true := fun n =>
    isScalarCode_ascii (Json.printable_hexDigit _ (Nat.mod_lt n (by decide)))
  have hesc : ∀ d < 128, isScalarCode d = true := fun d hd => isScalarCode_iff.mpr (by omega)
  rw [quoteRune]
  split_ifs with hquote <;>
    simp only [Json.hexEscape, List.forall_mem_cons, List.not_mem_nil, false_imp_iff, implies_true,
      and_true, hhex, h, hesc 92 (by decide)]
  all_goals simp [hesc]

/-- Encoded text has no surrogates. -/
theorem isScalarCode_marshalText {v : Value} (hl : v.allScalars isLiteral = true)
    (ht : v.allStrs isUtf8 = true) : ∀ c ∈ marshalText v, isScalarCode c = true := by
  have hquote : ∀ s, isUtf8 s = true → ∀ c ∈ quote s, isScalarCode c = true := by
    intro s hs c hc
    obtain ⟨cs, hcs, rfl⟩ := isUtf8_iff.mp hs
    rw [quote, utf8Decode_encode false hcs, Option.getD_some, List.cons_append, List.mem_cons,
      List.mem_append, List.mem_flatMap, List.mem_singleton] at hc
    rcases hc with rfl | ⟨d, hd, hcd⟩ | rfl
    · rfl
    · exact isScalarCode_quoteRune (hcs d hd) c hcd
    · rfl
  rw [marshalText_eq]
  refine Json.forall_write (fun c => isScalarCode_ascii) (fun w hw c hc => ?_) hquote
    (by rwa [Json.Tree.allScalars_canon]) (by rwa [Json.Tree.allStrs_canon])
  exact isScalarCode_ascii (Json.printable_of_isWordCode ((wordText_of_isLiteral w hw).2.1 c hc))

/-- **An encoded map decodes to itself**, its members in order. -/
theorem object_marshal {m : Map} (h : Decoded (.obj m)) :
    ∃ m', object (marshal (.obj m)) = .ok m' ∧
      (.obj m' : Value) = (.obj m : Value).canon (List.map UInt8.toNat) := by
  set v : Value := (.obj m : Value).canon (List.map UInt8.toNat) with hv
  have hcanonText : v.allStrs isUtf8 = true := by rw [hv, Json.Tree.allStrs_canon]; exact h.texts
  have hcanonWords : v.allScalars isLiteral = true := by
    rw [hv, Json.Tree.allScalars_canon]; exact h.literals
  have hparse : Json.parse classify (marshalText (.obj m)) = some (v.mapStrs unitsOfText) := by
    rw [marshalText_eq, ← hv]
    exact Json.parse_write wordText_of_isLiteral (fun s _ => strText_quote s) hcanonWords hcanonText
  have hdecode : decodeValue (marshalText (.obj m)) = some v := by
    rw [decodeValue, hparse, Option.bind_some, if_pos, mapStrs_unquote hcanonText,
      Json.Tree.lastWins_of_keysNodup]
    · rw [hv, Json.Tree.keysNodup_canon]
      exact h.keys
    · rw [Json.Tree.depth_mapStrs_le, hv, Json.Tree.depth_canon_le]
      exact h.depth
  refine ⟨_, ?_, (Json.Tree.canon_obj _ _).symm⟩
  rw [object, marshal, utf8Decode_encode false (isScalarCode_marshalText h.literals h.texts)]
  simp only [hdecode, hv, Json.Tree.canon_obj]

end SwarmAuth.Go
