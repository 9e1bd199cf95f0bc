import SwarmAuth.Node.Alike
import SwarmAuth.Interop.Verify

/-!
# Signed tokens, read back

A token that `signToken` makes has three segments; its header is read back always, and its
payload, when it is claims that the validator accepts, just when no pin has a pattern of
`String.prototype.replace`. What is read is then alike to what was signed.

## Main definitions

* `SignedAs` — a token that is read to what was signed.
* `parse_signed`, `ascii_claimsWire` — its segments, and the text of its payload.
* `signedAs_of_free`, `free_of_signedAs` — when valid claims are read back.
* `readAs_of_signedAs` — what is read is alike to what was signed.
-/
namespace SwarmAuth.Node

open Js Interop

/-! ## What is read of a signed token -/

theorem decodePart_ascii {text : List ℕ} (h : ∀ c ∈ text, c < 128) :
    decodePart (b64urlEncode (bufferFrom text)) = parseJson text := by
  have hscalar : ∀ c ∈ text, isScalarCode c = true := by
    intro c hc
    have hlt := h c hc
    rw [isScalarCode_iff]
    omega
  have hunits : text.map UInt16.ofNat = text.flatMap unitsOf := by
    rw [List.map_eq_flatMap]
    refine List.flatMap_congr fun c hc => ?_
    have hlt := h c hc
    rw [unitsOf, if_pos (by omega)]
  have hbuffer : bufferFrom text = utf8Encode text := by
    rw [bufferFrom, hunits, codePoints_flatMap_unitsOf hscalar, map_replacement hscalar]
  have hascii : utf8Encode text = asciiBytes text := by
    rw [utf8Encode, asciiBytes, List.map_eq_flatMap]
    exact List.flatMap_congr fun c hc => by rw [utf8Octets, if_pos (h c hc)]
  have hmark : ¬ [0xEF, 0xBB, 0xBF] <+: utf8Encode text := by
    rw [hascii]
    cases text with
    | nil => simp [asciiBytes]
    | cons c text =>
        have hlt := h c List.mem_cons_self
        rw [asciiBytes, List.map_cons, List.cons_prefix_cons]
        intro hprefix
        have hnat := congrArg UInt8.toNat hprefix.1
        rw [UInt8.toNat_ofNat'] at hnat
        have : (0xEF : UInt8).toNat = 239 := rfl
        omega
  have hdecode : b64urlDecode (b64urlEncode (utf8Encode text)) = .ok (utf8Encode text) :=
    node_b64urlDecode _
  rw [hbuffer, decodePart, hdecode]
  simp only [if_neg hmark, utf8Decode_encode false hscalar, Option.bind_some]

theorem parseJson_valueText {v : Value} (h : v.allScalars portable = true)
    (hnodup : v.keysNodup = true) : parseJson (WireClaims.valueText v) = some (asRead v) := by
  have hread : (asRead v).keysNodup = true := (keysNodup_mapScalars ..).trans hnodup
  rw [parseJson, ← render_words, parse_words (words_wordy h), traverse_words h, Option.map_some,
    Json.Tree.lastWins_of_keysNodup _ hread]

theorem ascii_words {t : Json.Tree (List ℕ) Units}
    (h : t.allScalars (fun text => text ≠ [] && text.all Json.isWordCode) = true) :
    ∀ c ∈ Json.render id t, c < 128 := by
  intro c hc
  have hword : ∀ text : List ℕ, (text ≠ [] && text.all Json.isWordCode) = true →
      Json.WordText some id text := by
    intro text htext
    rw [Bool.and_eq_true, decide_eq_true_eq, List.all_eq_true] at htext
    exact ⟨htext.1, htext.2, rfl⟩
  have hprintable := Json.printable_render hword h c hc
  rw [Json.isPrintable, Bool.and_eq_true, decide_eq_true_eq, decide_eq_true_eq] at hprintable
  omega

/-- The header that is signed. -/
def headerOf (publicKey : Bytes) : Object :=
  [(lit "alg", .str (lit "EdDSA")), (lit "kid", .str (b64urlEncode publicKey)),
    (lit "typ", .str (lit "JCT"))]

theorem canonicalJson_headerOf (publicKey : Bytes) :
    canonicalJson (.obj (headerOf publicKey)) =
      .ok (WireClaims.valueText (.obj (headerOf publicKey))) := by
  have hsort : Json.Tree.sortMembers codePoints [(lit "alg", 0), (lit "kid", 1), (lit "typ", 2)] =
      [(lit "alg", 0), (lit "kid", 1), (lit "typ", 2)] := by decide +kernel
  have hcanon : (Json.Tree.obj (headerOf publicKey) : Value).canon codePoints =
      .obj (headerOf publicKey) := by
    rw [Json.Tree.canon_obj]
    exact congrArg _ (WireClaims.sortMembers_positions hsort
      [.str (lit "EdDSA"), .str (b64urlEncode publicKey), .str (lit "JCT")])
  rw [canonicalJson, encode_eq rfl, hcanon]
  rfl

/-- The header is read back. -/
theorem decodePart_header (publicKey : Bytes) :
    decodePart (b64urlEncode (bufferFrom (WireClaims.valueText (.obj (headerOf publicKey))))) =
      some (.obj (headerOf publicKey)) := by
  have hnodup : (Json.Tree.obj (headerOf publicKey) : Value).keysNodup = true := by
    rw [Json.Tree.keysNodup_obj, Bool.and_eq_true, decide_eq_true_eq]
    exact ⟨by simp only [headerOf, List.map_cons, List.map_nil]; decide, rfl⟩
  have hascii : ∀ c ∈ WireClaims.valueText (.obj (headerOf publicKey)), c < 128 := by
    rw [← render_words]
    exact ascii_words (words_wordy rfl)
  rw [decodePart_ascii hascii, parseJson_valueText rfl hnodup]
  rfl

theorem b64urlEncode_eq_nil {data : Bytes} (h : b64urlEncode data = []) : data = [] := by
  have hdecode : b64urlDecode (b64urlEncode data) = .ok data := node_b64urlDecode data
  rw [h] at hdecode
  exact (Except.ok.inj hdecode).symm

theorem segments_eq_some {token h p s : Units} : segments token = some (h, p, s) ↔
    token.splitOn 46 = [h, p, s] ∧ h ≠ [] ∧ p ≠ [] ∧ s ≠ [] := by
  rw [segments]
  split
  · next a b c hsplit =>
      rw [hsplit]
      split_ifs with hnil
      · simp only [false_iff, List.cons.injEq, and_true]
        rintro ⟨⟨rfl, rfl, rfl⟩, hh, hp, hs⟩
        simp [hh, hp, hs] at hnil
      · simp only [Option.some.injEq, Prod.mk.injEq, List.cons.injEq, and_true]
        constructor
        · rintro ⟨rfl, rfl, rfl⟩
          simpa [not_or] using hnil
        · exact fun hall => hall.1
  · next hsplit => exact ⟨fun hnone => absurd hnone (by simp), fun hall => absurd hall.1 (hsplit h p s)⟩

section Signed
variable {sign : Bytes → Bytes} {publicKey : Bytes} {claims : Object} {token : Units}

/-- **The segments of a token that was signed.** -/
theorem splitOn_signed (h : signToken sign publicKey claims = .ok token) :
    ∃ text data, claimsWire claims = .ok text ∧ token.splitOn 46 =
      [b64urlEncode (bufferFrom (WireClaims.valueText (.obj (headerOf publicKey)))),
        b64urlEncode (bufferFrom text), b64urlEncode (sign data)] := by
  rw [signToken, bind_eq_ok] at h
  obtain ⟨header, hheader, h⟩ := h
  obtain ⟨text, htext, h⟩ := bind_eq_ok.mp h
  have hsame : canonicalJson (.obj (headerOf publicKey)) = .ok header := hheader
  rw [canonicalJson_headerOf, Except.ok.injEq] at hsame
  rw [← pure_eq_ok.mp h, ← hsame]
  exact ⟨text, _, htext, Python.splitOn_token _ _ _⟩

/-- What a token that parses was read from. -/
theorem parse_eq_ok {p : Parsed} (h : parse token = .ok p) : ∃ header payload signature o,
    segments token = some (header, payload, signature) ∧ decodePart payload = some (.obj o) ∧
      validateObject o = .ok () ∧ p.claims = readClaims o := by
  simp only [parse, bind_eq_ok, orRaise_eq_ok, pure_eq_ok] at h
  obtain ⟨⟨x, y, z⟩, hsegments, header, -, v, hv, _, -, o, -, _, hvalid, rfl⟩ := h
  cases v with
  | obj o => exact ⟨x, y, z, o, hsegments, hv, hvalid, rfl⟩
  | _ => cases hvalid

/-- Claims of some token that parses. -/
def Presented (c : Claims) : Prop := ∃ token p, parse token = .ok p ∧ p.claims = c

/-- The constraints of a parsed token are an object that was validated. -/
theorem Presented.limits {c : Claims} (h : Presented c) :
    ∃ limits, validateConstraints limits = .ok () ∧ c.constraints = emptyConstraints limits := by
  obtain ⟨token, p, hp, rfl⟩ := h
  obtain ⟨-, -, -, o, -, -, hvalid, hclaims⟩ := parse_eq_ok hp
  rw [hclaims]
  simp only [validateObject, raiseIf_bind_eq_ok] at hvalid
  obtain ⟨-, -, -, hconstraints⟩ := hvalid
  have hread : (readClaims o).constraints =
      emptyConstraints (objectOr (Object.get o "constraints")) := rfl
  rw [hread]
  cases hc : Object.get o "constraints" with
  | obj limits =>
      rw [hc] at hconstraints
      exact ⟨limits, hconstraints, rfl⟩
  | scalar s =>
      rw [hc] at hconstraints
      cases s with
      | undefined => exact ⟨[], hconstraints, rfl⟩
      | _ => cases hconstraints
  | _ =>
      rw [hc] at hconstraints
      cases hconstraints

/-- It expires at a safe integer. -/
theorem Presented.safe_exp {c : Claims} (h : Presented c) : isSafeInteger c.exp = true := by
  obtain ⟨token, p, hp, rfl⟩ := h
  obtain ⟨-, -, -, o, -, -, hvalid, hclaims⟩ := parse_eq_ok hp
  rw [validateObject, raiseIf_bind_eq_ok] at hvalid
  have hfields := hvalid.1
  simp only [validFields, Bool.not_eq_true', Bool.not_eq_false, Bool.and_eq_true] at hfields
  have hexp : safeInteger (Object.get o "exp") = true := hfields.1.2
  have hread : (readClaims o).exp = (numberOf (Object.get o "exp")).getD .nan := rfl
  rw [hclaims, hread]
  generalize Object.get o "exp" = value at hexp ⊢
  cases value with
  | scalar v =>
      cases v with
      | number d => exact hexp
      | _ => cases hexp
  | _ => cases hexp

theorem keysNodup_decodePart {part : Units} {v : Value} (h : decodePart part = some v) :
    v.keysNodup = true := by
  rw [decodePart] at h
  split at h
  · obtain ⟨codes, -, hparse⟩ := Option.bind_eq_some_iff.mp h
    obtain ⟨t, -, rfl⟩ := Option.map_eq_some_iff.mp hparse
    exact Json.Tree.keysNodup_lastWins t
  · cases h

/-- **A token that was signed parses** when its payload is read to valid claims. -/
theorem parse_signed (h : signToken sign publicKey claims = .ok token)
    (hsign : ∀ data, sign data ≠ []) {text : List ℕ} (htext : claimsWire claims = .ok text)
    (hascii : ∀ c ∈ text, c < 128) {o : Object} (ho : parseJson text = some (.obj o))
    (hvalid : validateObject o = .ok ()) : ∃ p header payload signature, parse token = .ok p ∧
      segments token = some (header, payload, signature) ∧ decodePart payload = some (.obj o) ∧
        p.claims = readClaims o := by
  obtain ⟨text', data, htext', hsplit⟩ := splitOn_signed h
  rw [htext] at htext'
  obtain rfl := Except.ok.inj htext'
  have hpayload := (decodePart_ascii hascii).trans ho
  have hne : ∀ {part : Units} {v : Value}, decodePart part = some v → part ≠ [] := by
    rintro _ v hpart rfl
    exact absurd hpart (by simp [show decodePart [] = none from by decide +kernel])
  have hsegments := segments_eq_some.mpr
    ⟨hsplit, hne (decodePart_header publicKey), hne hpayload, fun hnil => hsign data (b64urlEncode_eq_nil hnil)⟩
  have hsignature : b64urlDecode (b64urlEncode (sign data)) = .ok (sign data) := node_b64urlDecode _
  have hheader : supportedHeader (.obj (headerOf publicKey)) = some (headerOf publicKey) := by
    simp [supportedHeader, headerOf, Object.get, List.lookup_cons, show (lit "typ" == lit "alg") = false from rfl,
      show (lit "typ" == lit "kid") = false from rfl]
  let signingInput := b64urlEncode (bufferFrom (WireClaims.valueText (.obj (headerOf publicKey)))) ++
    [46] ++ b64urlEncode (bufferFrom text)
  refine ⟨⟨headerOf publicKey, readClaims o, signingInput⟩, _, _, _, ?_, hsegments, hpayload, rfl⟩
  simp only [parse, hsegments, decodePart_header, hpayload, hsignature, hheader, orRaise, validateClaims,
    hvalid, bind, Except.bind, raiseIf]
  rfl

end Signed

/-- What is put in for patterns is as plain as the texts it comes from. -/
theorem expand_all {q : ℕ → Prop} {matched before after text : List ℕ} (hdollar : q 36)
    (hmatched : ∀ c ∈ matched, q c) (hbefore : ∀ c ∈ before, q c) (hafter : ∀ c ∈ after, q c)
    (htext : ∀ c ∈ text, q c) : ∀ c ∈ expand matched before after text, q c := by
  induction text using expand.induct with
  | case1 rest ih =>
      rw [expand, List.forall_mem_cons]
      exact ⟨hdollar, ih fun c hc => htext c (by simp [hc])⟩
  | case2 rest ih =>
      rw [expand, List.forall_mem_append]
      exact ⟨hmatched, ih fun c hc => htext c (by simp [hc])⟩
  | case3 rest ih =>
      rw [expand, List.forall_mem_append]
      exact ⟨hbefore, ih fun c hc => htext c (by simp [hc])⟩
  | case4 rest ih =>
      rw [expand, List.forall_mem_append]
      exact ⟨hafter, ih fun c hc => htext c (by simp [hc])⟩
  | case5 c rest _ _ _ _ ih =>
      rw [expand, List.forall_mem_cons]
      · exact ⟨htext c (by simp), ih fun c hc => htext c (by simp [hc])⟩
      all_goals assumption
  | case6 => simp [expand]

/-- The text that is signed for valid claims is ASCII. -/
theorem ascii_claimsWire {claims : Object} (h : ValidClaims claims) {text : List ℕ}
    (htext : claimsWire (withDefaults claims) = .ok text) : ∀ c ∈ text, c < 128 := by
  have hportable := portable_wireOf h
  have hold : ∀ c ∈ (wireOf claims).text (oldText (wireOf claims)), c < 128 := by
    have hmembers := portable_members hportable (portable_amount h)
    rw [oldText, ← WireClaims.render_members, ← render_words]
    exact ascii_words (words_wordy hmembers)
  have hnew : ∀ c ∈ (wireOf claims).text (newText (wireOf claims)), c < 128 := by
    rw [newText, ← WireClaims.render_memberWords]
    exact ascii_words ((wireOf claims).wordy_memberWords _ hportable
      (reads_amountText h.constraints.maxAmountUsd))
  rw [WireClaims.text, List.forall_mem_append, List.forall_mem_append] at hold hnew
  rw [claimsWire_expand h, Except.ok.injEq] at htext
  rw [← htext, List.forall_mem_append, List.forall_mem_append]
  exact ⟨⟨hold.1.1, expand_all (by decide) hold.1.2 hold.1.1 hold.2 hnew.1.2⟩, hold.2⟩

/-! ## Defaults -/

theorem orElse_orElse (value fallback : Value) :
    orElse (orElse value fallback) fallback = orElse value fallback := by
  by_cases hvalue : value.isNullish = true
  · have hsame : orElse value fallback = fallback := if_pos hvalue
    rw [hsame, orElse, ite_self]
  · have hsame : orElse value fallback = value := if_neg hvalue
    rw [hsame, hsame]

theorem emptyConstraints_idem (limits : Object) :
    emptyConstraintsObject (emptyConstraintsObject limits) = emptyConstraintsObject limits := by
  have hbudget : (Object.get (emptyConstraintsObject limits) "shared_budget").isNullish =
        (limits.get "shared_budget").isNullish ∧
      ((limits.get "shared_budget").isNullish = false →
        Object.get (emptyConstraintsObject limits) "shared_budget" = limits.get "shared_budget") := by
    by_cases hnull : (limits.get "shared_budget").isNullish = true
    · rw [emptyConstraintsObject, if_pos hnull, hnull]
      exact ⟨rfl, fun h => Bool.noConfusion h⟩
    · rw [emptyConstraintsObject, if_neg hnull]
      exact ⟨rfl, fun _ => rfl⟩
  have hpins : Object.get (emptyConstraintsObject limits) "allowed_params" =
      orElse (limits.get "allowed_params") (.obj []) := rfl
  have hamount : Object.get (emptyConstraintsObject limits) "max_amount_usd" =
      orElse (limits.get "max_amount_usd") .null := rfl
  have hcalls : Object.get (emptyConstraintsObject limits) "max_calls" =
      orElse (limits.get "max_calls") .null := rfl
  have hrate : Object.get (emptyConstraintsObject limits) "rate_limit_per_min" =
      orElse (limits.get "rate_limit_per_min") .null := rfl
  rw [emptyConstraintsObject, hpins, hamount, hcalls, hrate, orElse_orElse, orElse_orElse, orElse_orElse,
    orElse_orElse, hbudget.1]
  by_cases hnull : (limits.get "shared_budget").isNullish = true
  · rw [emptyConstraintsObject, if_pos hnull, if_pos hnull]
  · rw [if_neg hnull, hbudget.2 (Bool.eq_false_iff.mpr hnull), emptyConstraintsObject, if_neg hnull]

/-! ## Capabilities -/

/-- The capabilities of validated claims are an array of strings and holes. -/
theorem array_of_valid {o : Object} (h : validateObject o = .ok ()) :
    ∃ items, o.get "capabilities" = .arr items ∧ items ≠ [] ∧
      items.all (fun item => item = Value.hole || nonEmptyString item) = true := by
  simp only [validateObject, raiseIf_bind_eq_ok, Bool.not_eq_true', Bool.not_eq_false] at h
  obtain ⟨hfields, -⟩ := h
  simp only [validFields, Bool.and_eq_true] at hfields
  obtain ⟨⟨⟨⟨-, hcapabilities⟩, -⟩, -⟩, -⟩ := hfields
  generalize Object.get o "capabilities" = v at hcapabilities ⊢
  cases v with
  | arr items =>
      rw [Bool.and_eq_true, decide_eq_true_eq] at hcapabilities
      exact ⟨items, rfl, hcapabilities⟩
  | _ => cases hcapabilities

theorem items_of_valid {o : Object} (h : validateObject o = .ok ())
    (hp : (Json.Tree.obj o : Value).allScalars portable = true) :
    ∃ items, o.get "capabilities" = .arr items ∧ items ≠ [] ∧
      ∀ item ∈ items, nonEmptyString item = true := by
  obtain ⟨items, hitems, hsome, hall⟩ := array_of_valid h
  have hportable := (portable_or_undefined hp "capabilities").resolve_right (by rw [hitems]; simp)
  rw [hitems] at hportable
  exact ⟨items, hitems, hsome, strings_of_valid hall (whole_of_portable hportable)⟩

/-- Validated claims that are read have no hole. -/
theorem wholeArrays_of_portable {o : Object} (hp : (Json.Tree.obj o : Value).allScalars portable = true) :
    wholeArrays o = true := by
  have hwhole : ∀ {ms : Object}, (Json.Tree.obj ms : Value).allScalars portable = true → ∀ key,
      (Object.get ms key).whole = true := by
    intro ms hms key
    rcases portable_or_undefined hms key with hportable | hnone
    · exact whole_of_portable hportable
    · rw [hnone]
      rfl
  rw [wholeArrays, Bool.and_eq_true]
  refine ⟨hwhole hp _, ?_⟩
  rw [pinsOf, orElse]
  split_ifs
  · rfl
  · exact hwhole (portable_get hp _) _

/-! ## What is written of claims -/

section Written
variable {claims : Object}

/-- A text that is there when it is truthy. -/
theorem get_wireBody_optional (claims : Object) (key : Units) (hkey : key = lit "dlg" ∨ key = lit "prf") :
    Object.get (wireBody claims) key =
      if truthyValue (claims.get key) then claims.get key else .undefined := by
  rw [wireBody, truthyMember, truthyMember]
  rcases hkey with rfl | rfl <;> split_ifs <;> rfl

theorem onlyKeys_wireBody (claims : Object) : onlyKeys (wireBody claims)
    ["iss", "sub", "capabilities", "constraints", "iat", "exp", "jti", "dlg", "prf"] = true := by
  rw [wireBody, truthyMember, truthyMember]
  split_ifs <;> rfl

/-- What is written of valid claims is valid. -/
theorem validateObject_wireBody (h : validateObject claims = .ok ()) :
    validateObject (wireBody claims) = .ok () := by
  have hoptional : ∀ key, key = lit "dlg" ∨ key = lit "prf" →
      ¬ (!(claims.get key).isNullish && !nonEmptyString (claims.get key)) = true →
      ¬ (!(Object.get (wireBody claims) key).isNullish &&
        !nonEmptyString (Object.get (wireBody claims) key)) = true := by
    intro key hkey hvalid
    rw [get_wireBody_optional claims key hkey]
    split_ifs
    · exact hvalid
    · exact Bool.false_ne_true
  simp only [validateObject, raiseIf_bind_eq_ok] at h ⊢
  obtain ⟨hfields, hdlg, hprf, hconstraints⟩ := h
  refine ⟨?_, hoptional _ (Or.inl rfl) hdlg, hoptional _ (Or.inr rfl) hprf, hconstraints⟩
  rw [Bool.not_eq_true', Bool.not_eq_false] at hfields ⊢
  simp only [validFields, Bool.and_eq_true] at hfields ⊢
  obtain ⟨⟨⟨⟨⟨⟨⟨-, hiss⟩, hsub⟩, hjti⟩, hcapabilities⟩, hiat⟩, hexp⟩, hlt⟩ := hfields
  exact ⟨⟨⟨⟨⟨⟨⟨onlyKeys_wireBody claims, hiss⟩, hsub⟩, hjti⟩, hcapabilities⟩, hiat⟩, hexp⟩, hlt⟩

end Written

/-! ## Tokens that are read to what was signed -/

/-- The token parses, and its payload gives back what was signed. -/
def SignedAs (claims : Object) (token : Units) (p : Parsed) : Prop :=
  parse token = .ok p ∧ ∃ header payload signature read,
    segments token = some (header, payload, signature) ∧ decodePart payload = some (.obj read) ∧
      GivesBack claims read

/-- An object that is read of claims. -/
structure ReadAs (o claims : Object) : Prop where
  alike : Alike (.obj o) (.obj (wireBody claims))
  portable : (Json.Tree.obj o : Value).allScalars portable = true
  valid : validateObject o = .ok ()

section Reading
variable {sign : Bytes → Bytes} {publicKey : Bytes} {claims : Object} {token : Units} {p : Parsed}

/-- **Valid claims without holes and patterns are read back.** -/
theorem signedAs_of_free (h : signToken sign publicKey claims = .ok token)
    (hsign : ∀ data, sign data ≠ []) (hkeys : (Json.Tree.obj claims : Value).keysNodup = true)
    (hdefaults : withDefaults claims = claims) (hvalid : validateObject claims = .ok ())
    (hwhole : wholeArrays claims = true) (hfree : pinsFree claims = true) :
    ∃ p o, SignedAs claims token p ∧ p.claims = readClaims o ∧ ReadAs o claims := by
  have hclaims := validClaims_of hvalid hwhole
  obtain ⟨text, htext, hparse⟩ := parse_of_free_pins hkeys hclaims hfree
  have hascii := ascii_claimsWire hclaims htext
  rw [hdefaults] at htext
  have hcanon := canon_wireBody hclaims
  have hbodyKeys := keysNodup_body hkeys
  rw [hdefaults] at hcanon hbodyKeys
  let o : Object := (wireOf claims).members.map fun m => (m.1, m.2.mapScalars unsigned)
  have hread : asRead (.obj (wireOf claims).members) = .obj o := Json.Tree.mapScalars_obj ..
  have hportable : (Json.Tree.obj o : Value).allScalars portable = true := by
    rw [← hread]
    exact portable_asRead (portable_members (portable_wireOf hclaims) (portable_amount hclaims))
  have halike : Alike (.obj o) (.obj (wireBody claims)) := by
    refine ⟨?_, by simp, ?_, hbodyKeys⟩
    · rw [← hread, viewOf_asRead, ← hcanon, viewOf_canon]
    · rw [← hread]
      exact keysNodup_asRead hkeys hclaims
  have hbody := (portable_of_view halike.view).symm.trans hportable
  have hovalid : validateObject o = .ok () :=
    validateObject_alike halike.symm hbody (validateObject_wireBody hvalid)
  rw [hread] at hparse
  obtain ⟨p, header, payload, signature, hp, hsegments, hpayload, hpclaims⟩ :=
    parse_signed h hsign htext hascii hparse hovalid
  have hequal := (jsonEqual_iff_viewOf hportable halike.left halike.right).mpr halike.view
  rw [← hdefaults] at hequal
  have hback := (givesBack_iff halike.left hclaims.set).mpr hequal
  exact ⟨p, o, ⟨hp, header, payload, signature, o, hsegments, hpayload, hback⟩, hpclaims,
    halike, hportable, hovalid⟩

theorem readable_decodePart {part : Units} {v : Value} (h : decodePart part = some v) :
    v.allScalars readable = true := by
  rw [decodePart] at h
  split at h
  · obtain ⟨codes, -, hparse⟩ := Option.bind_eq_some_iff.mp h
    exact readable_parseJson hparse
  · cases h

/-- What is read back is equal to what was encoded. -/
theorem jsonEqual_of_signedAs (hdefaults : withDefaults claims = claims) (hset : WellSet claims)
    (hs : SignedAs claims token p) : ∃ header payload signature o,
      segments token = some (header, payload, signature) ∧ decodePart payload = some (.obj o) ∧
        GivesBack claims o ∧ (Json.Tree.obj o : Value).keysNodup = true ∧
          (Json.Tree.obj o : Value).allScalars readable = true ∧
            jsonEqual (.obj o) (.obj (wireBody claims)) = true := by
  obtain ⟨-, header, payload, signature, o, hsegments, hpayload, hback⟩ := hs
  have hnodup := keysNodup_decodePart hpayload
  have hequal := (givesBack_iff hnodup hset).mp hback
  rw [hdefaults] at hequal
  exact ⟨header, payload, signature, o, hsegments, hpayload, hback, hnodup, readable_decodePart hpayload,
    hequal⟩

/-- **What is read is alike to what was signed.** -/
theorem readAs_of_signedAs (h : signToken sign publicKey claims = .ok token)
    (hkeys : (Json.Tree.obj claims : Value).keysNodup = true)
    (hdefaults : withDefaults claims = claims) (hset : WellSet claims) (hs : SignedAs claims token p) :
    ∃ o, p.claims = readClaims o ∧ ReadAs o claims := by
  obtain ⟨header, payload, signature, o, hsegments, hpayload, -, hnodup, hreadable, hequal⟩ :=
    jsonEqual_of_signedAs hdefaults hset hs
  obtain ⟨header', payload', signature', o', hsegments', hpayload', hovalid, hclaims⟩ := parse_eq_ok hs.1
  rw [hsegments, Option.some.injEq, Prod.mk.injEq, Prod.mk.injEq] at hsegments'
  obtain ⟨-, rfl, -⟩ := hsegments'
  rw [hpayload, Option.some.injEq, Json.Tree.obj.injEq] at hpayload'
  subst hpayload'
  obtain ⟨text, data, htext, -⟩ := splitOn_signed h
  obtain ⟨encoded, hencoded, -⟩ := bind_eq_ok.mp htext
  have hportable := portable_of_jsonEqual hreadable (writable_of_encode hencoded) hequal
  have hbodyKeys := keysNodup_body hkeys
  rw [hdefaults] at hbodyKeys
  have hview := (jsonEqual_iff_viewOf hportable hnodup hbodyKeys).mp hequal
  exact ⟨o, hclaims, ⟨hview, by simp, hnodup, hbodyKeys⟩, hportable, hovalid⟩

/-- **Valid claims that are read back have no hole, and no pattern in their pins.** -/
theorem free_of_signedAs (h : signToken sign publicKey claims = .ok token)
    (hkeys : (Json.Tree.obj claims : Value).keysNodup = true)
    (hdefaults : withDefaults claims = claims) (hvalid : validateObject claims = .ok ())
    (hs : SignedAs claims token p) : wholeArrays claims = true ∧ pinsFree claims = true := by
  obtain ⟨header, payload, signature, o, hsegments, hpayload, hback, hnodup, hreadable, hequal⟩ :=
    jsonEqual_of_signedAs hdefaults (set_of_valid hvalid) hs
  obtain ⟨text, data, htext, hsplit⟩ := splitOn_signed h
  have hpart := (segments_eq_some.mp hsegments).1
  rw [hsplit] at hpart
  have hpayloadText : payload = b64urlEncode (bufferFrom text) := by
    simp only [List.cons.injEq, and_true] at hpart
    exact hpart.2.1.symm
  have htextDefaults : claimsWire (withDefaults claims) = .ok text :=
    (congrArg claimsWire hdefaults).trans htext
  rw [← hdefaults] at hequal
  have hwhole := wholeArrays_of_givesBack hkeys htextDefaults hreadable hnodup hequal
  have hclaims := validClaims_of hvalid hwhole
  have hparse : parseJson text = some (.obj o) := by
    rw [← decodePart_ascii (ascii_claimsWire hclaims htextDefaults), ← hpayloadText, hpayload]
  exact ⟨hwhole, pinsFree_of_round_trip hkeys hclaims ⟨text, o, htextDefaults, hparse, hback⟩⟩

end Reading

end SwarmAuth.Node
