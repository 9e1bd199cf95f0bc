import SwarmAuth.Interop.Pins
import SwarmAuth.Js.Value
import SwarmAuth.Python.Verify

/-!
# Verification in three SDKs

Python, Node and Go verify a token in different orders and with different marks of
absence. Under one trust store, one clock and one signature predicate they accept the same
tokens, as long as they read the same claims.

## Main definitions

* `SameText`, `SameClaims`, `SameToken` — what the three read of one token.
* `SameOptions`, `SameClock` — what they verify it against.
* `core_agrees`, `attenuated_agrees` — one link, and a child with its parent.
* `verifiers_agree` — the three accept the same tokens.
-/
namespace SwarmAuth.Interop

/-! ## The same claims -/

/-- The same text: no unpaired surrogates, and its UTF-8 octets. -/
def SameText (s : Units) (b : Bytes) : Prop :=
  (∀ c ∈ codePoints s, isScalarCode c = true) ∧ b = octets s

/-- The same text that may be absent, in Go as the empty string. -/
inductive SameOptText : Option Units → Bytes → Prop
  | absent : SameOptText none []
  | present {s : Units} {b : Bytes} (hne : s ≠ []) (h : SameText s b) : SameOptText (some s) b

/-- The same integer. -/
def SameInt (n : ℤ) (d : Double) (k : ℤ) : Prop := d.value? = some (n : ℚ) ∧ k = n

/-- The same limit, or none. -/
inductive SameCount : Option ℤ → Option Double → Option ℤ → Prop
  | unlimited : SameCount none none none
  | limit {n : ℤ} {d : Double} {k : ℤ} (h : SameInt n d k) : SameCount (some n) (some d) (some k)

/-- The same amount, or none. -/
inductive SameAmount : Option Double → Option Double → Option ℚ → Prop
  | unlimited : SameAmount none none none
  | limit {a d : Double} {q : ℚ} (ha : a.value? = some q) (hd : d.value? = some q) :
      SameAmount (some a) (some d) (some q)

/-- The same constraints. -/
structure SameConstraints (p : Python.Constraints) (n : Node.Constraints) (g : Go.Constraints) :
    Prop where
  maxCalls : SameCount p.maxCalls n.maxCalls g.maxCalls
  maxAmountUsd : SameAmount p.maxAmountUsd n.maxAmountUsd g.maxAmountUSD
  rateLimitPerMin : SameCount p.rateLimitPerMin n.rateLimitPerMin g.rateLimitPerMin
  allowedParams : SamePins p.allowedParams n.allowedParams g.allowedParams
  sharedBudget : n.sharedBudget = p.sharedBudget ∧ SameOptText p.sharedBudget g.sharedBudget

/-- The same claims. -/
structure SameClaims (p : Python.CapabilityClaims) (n : Node.Claims) (g : Go.Claims) : Prop where
  iss : n.iss = p.iss ∧ SameText p.iss g.iss
  sub : n.sub = p.sub ∧ SameText p.sub g.sub
  jti : n.jti = p.jti ∧ SameText p.jti g.jti
  capabilities : n.capabilities = p.capabilities ∧
    List.Forall₂ SameText p.capabilities g.capabilities
  constraints : SameConstraints p.constraints n.constraints g.constraints
  iat : SameInt p.iat n.iat g.iat
  exp : SameInt p.exp n.exp g.exp
  dlg : n.dlg = p.dlg ∧ SameOptText p.dlg g.delegate
  prf : n.prf = p.prf ∧ SameOptText p.prf g.parent

/-- A token that all three parse to the same claims and key id. -/
structure SameToken (token : Units) (gtoken : Bytes) (p : Python.Parsed) (n : Node.Parsed)
    (g : Go.Parsed) : Prop where
  text : SameText token gtoken
  python : Python.parse token = .ok p
  node : Node.parse token = .ok n
  go : Go.parse gtoken = .ok g
  claims : SameClaims p.claims n.claims g.claims
  kid : Python.kidBytes p.header = .ok g.kid ∧ Node.kidBytes n.header = .ok g.kid

/-! ## The same options -/

/-- The same root and holder keys of every agent. -/
structure SameRegistry (p : Python.KeyRegistry) (n : Node.KeyRegistry) (g : Go.Registry) : Prop where
  roots : ∀ iss b, SameText iss b → ∀ key,
    (key ∈ n.roots iss ↔ key ∈ p.keys iss) ∧ (key ∈ g.roots b ↔ key ∈ p.keys iss)
  holders : ∀ iss b, SameText iss b → ∀ key,
    (key ∈ n.holders iss ↔ key ∈ p.holders iss) ∧ (key ∈ g.holders b ↔ key ∈ p.holders iss)

/-- The same registry, or none. -/
inductive SameOptRegistry :
    Option Python.KeyRegistry → Option Node.KeyRegistry → Option Go.Registry → Prop
  | absent : SameOptRegistry none none none
  | present {p : Python.KeyRegistry} {n : Node.KeyRegistry} {g : Go.Registry}
      (h : SameRegistry p n g) : SameOptRegistry (some p) (some n) (some g)

/-- The same trust, audience, leeway and revocation answers. -/
structure SameOptions (p : Python.VerifyOptions) (n : Node.VerifyOptions) (g : Go.VerifyOptions) :
    Prop where
  publicKey : n.publicKey = p.issuerPublicKey ∧ g.publicKey = p.issuerPublicKey
  registry : SameOptRegistry p.keyRegistry n.registry g.registry
  audience : n.audience = p.audience ∧ SameOptText p.audience g.audience
  leewaySeconds : SameInt p.leewaySeconds (n.leewaySeconds.getD (.ofInt 2)) (g.leewaySeconds.getD 2)
  leeway_range : 0 ≤ p.leewaySeconds ∧ p.leewaySeconds ≤ 2
  revoked : ∀ jti b, SameText jti b → n.isRevoked jti = p.revoked jti ∧
    match g.revocations with
    | some isRevoked => isRevoked b = .ok (p.revoked jti)
    | none => p.revoked jti = false

/-- The clock reads of the three fall into the same second. -/
structure SameClock (n : Node.VerifyOptions) (g : Go.VerifyOptions) (time nclock gclock : ℚ)
    (second : ℤ) : Prop where
  python : Python.intTime time = second
  node : (n.now.getD (.ofInt ⌊nclock⌋)).value? = some (second : ℚ)
  go : ⌊g.now.getD gclock⌋ = second

/-! ## Texts -/

theorem SameText.inj {s t : Units} {b c : Bytes} (h : SameText s b) (h' : SameText t c) :
    b = c ↔ s = t := by
  rw [h.2, h'.2]
  exact octets_injective.eq_iff

theorem SameText.eq_nil {s : Units} {b : Bytes} (h : SameText s b) : b = [] ↔ s = [] := by
  have hnil : SameText [] [] := ⟨by simp [codePoints], rfl⟩
  exact h.inj hnil

theorem SameOptText.eq_nil {o : Option Units} {b : Bytes} (h : SameOptText o b) :
    b = [] ↔ o = none := by
  cases h with
  | absent => simp
  | present hne h => simp [h.eq_nil, hne]

theorem SameOptText.eq_some {o : Option Units} {b c : Bytes} {s : Units} (h : SameOptText o b)
    (hs : SameText s c) (hne : s ≠ []) : b = c ↔ o = some s := by
  cases h with
  | absent =>
      refine iff_of_false (fun hc => hne ?_) nofun
      exact hs.eq_nil.mp hc.symm
  | present _ h => rw [h.inj hs, Option.some.injEq]

theorem SameOptText.inj {o o' : Option Units} {b b' : Bytes} (h : SameOptText o b)
    (h' : SameOptText o' b') : b = b' ↔ o = o' := by
  cases h' with
  | absent => exact h.eq_nil
  | present hne h' => exact h.eq_some h' hne

theorem SameText.of_forall₂ {ss : List Units} {bs : List Bytes} (h : List.Forall₂ SameText ss bs) :
    bs = ss.map octets ∧ ∀ s ∈ ss, ∀ c ∈ codePoints s, isScalarCode c = true := by
  induction h with
  | nil => simp
  | cons hs _ ih => exact ⟨by rw [List.map_cons, ih.1, hs.2], List.forall_mem_cons.mpr ⟨hs.1, ih.2⟩⟩

/-- **A pattern names the same texts** in UTF-16 and in UTF-8. -/
theorem covered_agrees {cap : Units} {capb : Bytes} {granted : List Units} {grantedb : List Bytes}
    (hcap : SameText cap capb) (hgranted : List.Forall₂ SameText granted grantedb) :
    Go.covered capb grantedb = Python.capabilityCovered cap granted := by
  obtain ⟨hbytes, hscalar⟩ := SameText.of_forall₂ hgranted
  have hlt : ∀ c, isScalarCode c = true → c < 0x110000 := fun c hc => (isScalarCode_iff.mp hc).1
  have hcodes : ∀ cs ∈ granted.map codePoints, ∀ c ∈ cs, isScalarCode c = true := by
    rw [List.forall_mem_map]
    exact hscalar
  have hutf8 : Go.covered capb grantedb =
      Wildcard.coveredBy 58 42 (codePoints cap) (granted.map codePoints) := by
    rw [← Wildcard.coveredBy_flatMap utf8_prefixCode (utf8_mark (by norm_num))
      (utf8_mark (by norm_num)) (fun cs hcs c hc => hlt c (hcodes cs hcs c hc))
      (fun c hc => hlt c (hcap.1 c hc)), List.map_map, Go.covered, hcap.2, hbytes]
    rfl
  have hutf16 : Python.capabilityCovered cap granted =
      Wildcard.coveredBy 58 42 (codePoints cap) (granted.map codePoints) := by
    have hmap : (granted.map codePoints).map (fun cs => cs.flatMap unitsOf) = granted := by
      rw [List.map_map]
      exact (List.map_congr_left fun s _ => flatMap_unitsOf_codePoints s).trans (List.map_id _)
    rw [← Wildcard.coveredBy_flatMap utf16_prefixCode (utf16_mark (by norm_num))
      (utf16_mark (by norm_num)) hcodes hcap.1, hmap, flatMap_unitsOf_codePoints]
    rfl
  rw [hutf8, hutf16]

/-! ## One token's text -/

theorem b64urlEncode_codes (data : Bytes) :
    Python.b64urlEncode data = (Base64Url.encode data).flatMap unitsOf ∧
      Go.encodeToString data = asciiBytes (Base64Url.encode data) := by
  refine ⟨?_, rfl⟩
  rw [Python.b64urlEncode, List.map_eq_flatMap]
  refine List.flatMap_congr fun c hc => ?_
  obtain ⟨n, hn⟩ := Base64Url.charSextet_of_mem_encode hc
  have hlt := (Base64Url.charSextet_ascii hn).1
  rw [unitsOf, if_pos (by omega)]

/-- The octets of an ASCII text are its codes. -/
theorem octets_ascii {cs : List ℕ} (h : ∀ c ∈ cs, c < 128) : octets (cs.flatMap unitsOf) = asciiBytes cs := by
  have hscalar : ∀ c ∈ cs, isScalarCode c = true := by
    intro c hc
    have := h c hc
    rw [isScalarCode_iff]
    omega
  rw [octets, codePoints_flatMap_unitsOf hscalar, utf8Encode, asciiBytes, List.map_eq_flatMap]
  refine List.flatMap_congr fun c hc => ?_
  rw [utf8Octets, if_pos (h c hc)]

/-- A token that Python parses is three encoded segments. -/
theorem parse_segments {token : Units} {p : Python.Parsed} (h : Python.parse token = .ok p) :
    ∃ header payload signature, token = Python.signingText (Python.b64urlEncode header)
        (Python.b64urlEncode payload) ++ [46] ++ Python.b64urlEncode signature ∧
      p.signingInput = Python.encodeAscii (Python.signingText (Python.b64urlEncode header)
        (Python.b64urlEncode payload)) ∧ Python.signatureOf token = signature := by
  unfold Python.parse at h
  split at h
  · rename_i headerB64 payloadB64 sigB64 hsplit
    obtain ⟨header, hheader, h⟩ := bind_eq_ok.mp h
    obtain ⟨payload, hpayload, h⟩ := bind_eq_ok.mp h
    obtain ⟨signature, hsig, h⟩ := bind_eq_ok.mp h
    obtain ⟨dict, -, h⟩ := bind_eq_ok.mp h
    obtain ⟨claims, -, h⟩ := bind_eq_ok.mp h
    obtain ⟨hb, hhb, -⟩ := Option.bind_eq_some_iff.mp (orRaise_eq_ok.mp hheader)
    obtain ⟨pb, hpb, -⟩ := Option.bind_eq_some_iff.mp (orRaise_eq_ok.mp hpayload)
    rw [Python.b64urlDecode_eq] at hhb hpb
    have hs := orRaise_eq_ok.mp hsig
    have htoken : [(46 : UInt16)].intercalate (token.splitOn 46) = token := List.intercalate_splitOn 46
    rw [hsplit] at htoken
    refine ⟨hb, pb, signature, ?_, ?_, ?_⟩
    · rw [← htoken, hhb, hpb, Python.b64urlDecode_eq.mp hs]
      simp [Python.signingText, List.intercalate, List.intersperse]
    · rw [← pure_eq_ok.mp h, hhb, hpb]
    · rw [Python.signatureOf, hsplit]
      simp [hs]
  · cases h

theorem node_b64urlDecode (data : Bytes) :
    Node.b64urlDecode (Python.b64urlEncode data) = .ok data := by
  have h := Python.b64urlDecode_encode data
  rw [Python.b64urlDecode] at h
  rw [Node.b64urlDecode]
  split_ifs at h ⊢
  cases hd : Base64Url.decode ((Python.b64urlEncode data).map UInt16.toNat) with
  | none => rw [hd] at h; cases h
  | some decoded =>
      rw [hd] at h
      simp only at h ⊢
      split_ifs at h with heq
      rw [← Option.some.inj h]
      exact if_pos rfl

theorem go_decode (data : Bytes) : Go.decode (Go.encodeToString data) = .ok data := by
  have hcodes : (Go.encodeToString data).map UInt8.toNat = Base64Url.encode data := by
    rw [Go.encodeToString, List.map_map]
    refine (List.map_congr_left fun c hc => ?_).trans (List.map_id _)
    obtain ⟨n, hn⟩ := Base64Url.charSextet_of_mem_encode hc
    have := (Base64Url.charSextet_ascii hn).1
    simp
    omega
  rw [Go.decode, hcodes, Base64Url.decode_encode]
  simp

/-- The signed part of a token that Node parses. -/
theorem node_parse_ok {token : Units} {n : Node.Parsed} (h : Node.parse token = .ok n) :
    ∃ a b c, Node.segments token = some (a, b, c) ∧ n.signingInput = a ++ [46] ++ b := by
  obtain ⟨⟨a, b, c⟩, hseg, h⟩ := bind_eq_ok.mp h
  obtain ⟨header, -, h⟩ := bind_eq_ok.mp h
  obtain ⟨claims, -, h⟩ := bind_eq_ok.mp h
  obtain ⟨-, h⟩ := raiseIf_bind_eq_ok.mp h
  obtain ⟨headerObject, -, h⟩ := bind_eq_ok.mp h
  obtain ⟨⟨⟩, -, h⟩ := bind_eq_ok.mp h
  rw [← pure_eq_ok.mp h]
  exact ⟨a, b, c, orRaise_eq_ok.mp hseg, rfl⟩

/-- A token of three encoded segments, as Go reads it. -/
theorem go_segments (header payload signature : Bytes) :
    octets (Python.signingText (Python.b64urlEncode header) (Python.b64urlEncode payload) ++ [46] ++
        Python.b64urlEncode signature) =
      Go.encodeToString header ++ [46] ++ Go.encodeToString payload ++ [46] ++
        Go.encodeToString signature := by
  have hascii : ∀ data : Bytes, ∀ c ∈ Base64Url.encode data, c < 128 := by
    intro data c hc
    obtain ⟨n, hn⟩ := Base64Url.charSextet_of_mem_encode hc
    exact (Base64Url.charSextet_ascii hn).1
  have hcodes : Python.signingText (Python.b64urlEncode header) (Python.b64urlEncode payload) ++
      [46] ++ Python.b64urlEncode signature =
      (Base64Url.encode header ++ [46] ++ Base64Url.encode payload ++ [46] ++
        Base64Url.encode signature).flatMap unitsOf := by
    simp only [Python.signingText, (b64urlEncode_codes _).1, List.flatMap_append]
    rfl
  rw [hcodes, octets_ascii]
  · simp only [asciiBytes, Go.encodeToString, List.map_append]
    rfl
  · intro c hc
    simp only [List.mem_append, List.mem_singleton] at hc
    rcases hc with (((hc | rfl) | hc) | rfl) | hc
    · exact hascii _ c hc
    · decide
    · exact hascii _ c hc
    · decide
    · exact hascii _ c hc

theorem dot_not_mem_encodeToString (data : Bytes) : (46 : UInt8) ∉ Go.encodeToString data := by
  intro h
  obtain ⟨c, hc, heq⟩ := List.mem_map.mp h
  obtain ⟨n, hn⟩ := Base64Url.charSextet_of_mem_encode hc
  obtain ⟨hlt, hne⟩ := Base64Url.charSextet_ascii hn
  have htoNat := congrArg UInt8.toNat heq
  rw [UInt8.toNat_ofNat'] at htoNat
  have h46 : (46 : UInt8).toNat = 46 := rfl
  omega

/-- The three sign over the same octets and carry the same signature. -/
theorem SameToken.signed {token : Units} {gtoken : Bytes} {p : Python.Parsed} {n : Node.Parsed}
    {g : Go.Parsed} (h : SameToken token gtoken p n g) :
    asciiBytes (n.signingInput.map UInt16.toNat) = p.signingInput ∧ g.input = p.signingInput ∧
      Node.signatureOf token = .ok (Python.signatureOf token) ∧
      g.signature = Python.signatureOf token := by
  obtain ⟨header, payload, signature, htoken, hinput, hsig⟩ := parse_segments h.python
  have hsplit := Python.splitOn_token header payload signature
  rw [← htoken] at hsplit
  obtain ⟨a, b, c, _, _, hseg, hdecode, hinput', -, -⟩ := Go.parse_ok h.go
  have hgsplit : gtoken.splitOn 46 =
      [Go.encodeToString header, Go.encodeToString payload, Go.encodeToString signature] := by
    have hdot : ∀ l ∈ [Go.encodeToString header, Go.encodeToString payload,
        Go.encodeToString signature], (46 : UInt8) ∉ l := by
      intro l hl
      simp only [List.mem_cons, List.not_mem_nil, or_false] at hl
      rcases hl with rfl | rfl | rfl <;> exact dot_not_mem_encodeToString _
    have hjoin := List.splitOn_intercalate (46 : UInt8) hdot (by simp)
    rw [h.text.2, htoken, go_segments]
    simpa [List.intercalate, List.intersperse] using hjoin
  rw [Go.segments, hgsplit] at hseg
  simp only at hseg
  split_ifs at hseg
  obtain ⟨rfl, rfl, rfl⟩ := by simpa using hseg
  have hsig' : g.signature = signature := by
    rw [go_decode, Except.ok.injEq] at hdecode
    exact hdecode.symm
  refine ⟨?_, ?_, ?_, ?_⟩
  · obtain ⟨a, b, c, hseg, hn⟩ := node_parse_ok h.node
    rw [Node.segments, hsplit] at hseg
    simp only at hseg
    split_ifs at hseg
    obtain ⟨rfl, rfl, rfl⟩ := by simpa using hseg
    rw [hn, hinput]
    rfl
  · rw [hinput', hinput, Python.signingText, (b64urlEncode_codes header).2,
      (b64urlEncode_codes payload).2]
    simp only [Python.encodeAscii, List.map_append, Python.toNat_ofNat_base64, asciiBytes]
    rfl
  · rw [Node.signatureOf, hsplit, hsig]
    exact node_b64urlDecode signature
  · rw [hsig, hsig']

/-! ## One link -/

section Link
variable {ed : Python.SignatureCheck} {po : Python.VerifyOptions} {no : Node.VerifyOptions}
  {go : Go.VerifyOptions} {token : Units} {gtoken : Bytes} {p : Python.Parsed} {n : Node.Parsed}
  {g : Go.Parsed} {time nclock gclock : ℚ} {second : ℤ} {holder : Bool}

/-- **The lifetime holds in Node** when it does in Python. -/
theorem checkLifetime_iff (ho : SameOptions po no go) (hc : SameClaims p.claims n.claims g.claims)
    (hclock : SameClock no go time nclock gclock second) :
    Node.checkLifetime n.claims.iat n.claims.exp (no.leewaySeconds.getD (.ofInt 2))
        (no.now.getD (.ofInt ⌊nclock⌋)) = .ok () ↔
      p.claims.exp - p.claims.iat ≤ 30 ∧ p.claims.iat - po.leewaySeconds ≤ second ∧
        second ≤ p.claims.exp + po.leewaySeconds := by
  obtain ⟨hiat, -⟩ := hc.iat
  obtain ⟨hexp, -⟩ := hc.exp
  obtain ⟨hleeway, -⟩ := ho.leewaySeconds
  obtain ⟨hl0, hl2⟩ := ho.leeway_range
  have hv := p.claims.valid
  simp only [Python.ClaimFields.valid, Bool.and_eq_true, decide_eq_true_eq, Python.maxSafe,
    abs_le] at hv
  obtain ⟨⟨⟨⟨⟨⟨-, hsafe⟩, hsafe'⟩, -⟩, hlt⟩, -⟩, -⟩ := hv
  have h0 : (Double.ofInt 0).value? = some ((0 : ℤ) : ℚ) := value_ofInt (by norm_num)
  have h2 : (Double.ofInt 2).value? = some ((2 : ℤ) : ℚ) := value_ofInt (by norm_num)
  have h30 : (Double.ofInt 30).value? = some ((30 : ℤ) : ℚ) := value_ofInt (by norm_num)
  -- the three sums, each rounded
  have hdiff : ∀ {a b : Double} {x y : ℤ}, a.value? = some (x : ℚ) → b.value? = some (y : ℚ) →
      Js.minus a b = nearestTo ((x - y : ℤ) : ℚ) := by
    intro a b x y ha hb
    rw [Js.minus, ha, hb]
    push_cast
    rfl
  have hsum : Js.plus n.claims.exp (no.leewaySeconds.getD (.ofInt 2)) =
      nearestTo ((p.claims.exp + po.leewaySeconds : ℤ) : ℚ) := by
    rw [Js.plus, hexp, hleeway]
    push_cast
    rfl
  obtain ⟨ttl, httl, httl_iff⟩ := small_lt_nearestTo_iff (k := 30)
    (n := p.claims.exp - p.claims.iat) (by norm_num) (by rw [abs_le]; omega)
  obtain ⟨start, hstart, hstart_iff⟩ := lt_nearestTo_iff (m := p.claims.iat - po.leewaySeconds)
    hclock.node (by omega) (by omega)
  obtain ⟨finish, hfinish, hfinish_iff⟩ := nearestTo_lt_iff
    (m := p.claims.exp + po.leewaySeconds) hclock.node (by omega) (by omega)
  rw [Node.checkLifetime, raiseIf_bind_eq_ok, raiseIf_bind_eq_ok, raiseIf_bind_eq_ok,
    raiseIf_bind_eq_ok, raiseIf_eq_ok, hdiff hexp hiat, hdiff hiat hleeway, hsum,
    Js.lessThan_value h30 httl, Js.lessThan_value hclock.node hstart,
    Js.lessThan_value hfinish hclock.node, Js.lessThan_value hiat hexp,
    Js.lessThan_value hleeway h0, Js.lessThan_value h2 hleeway, Js.isSafeInteger_value hiat,
    Js.isSafeInteger_value hexp, Js.isInteger_value hleeway, Js.isFinite_value hclock.node]
  have hcast : ∀ x y : ℤ, ((x : ℚ) < (y : ℚ)) ↔ x < y := fun x y => Int.cast_lt
  simp only [hcast, httl_iff, hstart_iff, hfinish_iff, abs_le, Bool.or_eq_true, Bool.not_eq_true',
    decide_eq_true_eq, decide_eq_false_iff_not, Bool.not_true, Bool.false_eq_true, false_or, or_false]
  omega

theorem SameRegistry.node_mem {preg : Python.KeyRegistry} {nreg : Node.KeyRegistry}
    {greg : Go.Registry} (h : SameRegistry preg nreg greg) (holder : Bool) {iss : Units} {b : Bytes}
    (hb : SameText iss b) (key : Bytes) :
    key ∈ (if holder then nreg.holders iss else nreg.roots iss) ↔
      key ∈ if holder then preg.holders iss else preg.keys iss := by
  cases holder
  · exact (h.roots iss b hb key).1
  · exact (h.holders iss b hb key).1

theorem SameRegistry.go_mem {preg : Python.KeyRegistry} {nreg : Node.KeyRegistry}
    {greg : Go.Registry} (h : SameRegistry preg nreg greg) (holder : Bool) {iss : Units} {b : Bytes}
    (hb : SameText iss b) (key : Bytes) :
    key ∈ (if holder then greg.holders b else greg.roots b) ↔
      key ∈ if holder then preg.holders iss else preg.keys iss := by
  cases holder
  · exact (h.roots iss b hb key).2
  · exact (h.holders iss b hb key).2

/-- What the three ask of a link, besides its lifetime and its revocation. -/
def Trusted (ed : Python.SignatureCheck) (po : Python.VerifyOptions) (iss : Units)
    (kid input signature : Bytes) (holder : Bool) : Prop :=
  (match po.keyRegistry with
    | some reg => kid ∈ if holder then reg.holders iss else reg.keys iss
    | none => holder = false ∧ po.issuerPublicKey = some kid) ∧
  ed kid input signature = true

theorem python_trusted_iff (hkid : Python.kidBytes p.header = .ok g.kid) (signature : Bytes) :
    Python.verifyKidAndSignature ed po p signature holder = .ok () ↔
      Trusted ed po p.claims.iss g.kid p.signingInput signature holder := by
  rw [Python.verifyKidAndSignature, hkid, bind_eq_ok, Trusted]
  simp only [Except.ok.injEq, exists_eq_left']
  cases po.keyRegistry with
  | some reg =>
      simp only
      rw [bind_eq_ok]
      constructor
      · rintro ⟨trusted, ht, h⟩
        obtain ⟨-, rfl⟩ := Python.trustedFor_ok.mp ht
        rw [raiseIf_bind_eq_ok, not_not, Python.verifySignature, raiseIf_eq_ok] at h
        exact ⟨h.1, by simpa using h.2⟩
      · rintro ⟨hmem, hed⟩
        refine ⟨_, Python.trustedFor_ok.mpr ⟨List.ne_nil_of_mem hmem, rfl⟩, ?_⟩
        rw [raiseIf_bind_eq_ok, not_not, Python.verifySignature, raiseIf_eq_ok]
        exact ⟨hmem, by simpa using hed⟩
  | none =>
      simp only
      rw [raiseIf_bind_eq_ok, bind_eq_ok, Bool.not_eq_true]
      constructor
      · rintro ⟨hholder, key, hkey, h⟩
        rw [raiseIf_bind_eq_ok, not_not, Python.verifySignature, raiseIf_eq_ok] at h
        rw [orRaise_eq_ok, ← h.1] at hkey
        exact ⟨⟨hholder, hkey⟩, by simpa [← h.1] using h.2⟩
      · rintro ⟨⟨hholder, hkey⟩, hed⟩
        refine ⟨hholder, g.kid, orRaise_eq_ok.mpr hkey, ?_⟩
        rw [raiseIf_bind_eq_ok, not_not, Python.verifySignature, raiseIf_eq_ok]
        exact ⟨rfl, by simpa using hed⟩

theorem node_trusted_iff (ho : SameOptions po no go) (hc : SameClaims p.claims n.claims g.claims)
    (hkid : Node.kidBytes n.header = .ok g.kid) (signature : Bytes) :
    Node.verifyKidAndSignature ed no n signature holder = .ok () ↔
      Trusted ed po p.claims.iss g.kid (asciiBytes (n.signingInput.map UInt16.toNat)) signature
        holder := by
  rw [Node.verifyKidAndSignature, hkid, bind_eq_ok, Trusted]
  simp only [Except.ok.injEq, exists_eq_left']
  have hreg := ho.registry
  cases hp : po.keyRegistry with
  | some preg =>
      rw [hp] at hreg
      generalize hn : no.registry = nreg at hreg
      generalize go.registry = greg at hreg
      cases hreg with
      | present hsame =>
          have hkeys := hsame.node_mem holder hc.iss.2 g.kid
          simp only
          rw [Node.KeyRegistry.trustedFor, bind_eq_ok]
          simp only [raiseIf_bind_eq_ok, pure_eq_ok]
          rw [hc.iss.1, ← hkeys]
          constructor
          · rintro ⟨trusted, ⟨-, rfl⟩, h⟩
            rw [not_not, Node.verifySignature, raiseIf_eq_ok] at h
            exact ⟨h.1, by simpa using h.2⟩
          · rintro ⟨hmem, hed⟩
            refine ⟨_, ⟨List.ne_nil_of_mem hmem, rfl⟩, ?_⟩
            rw [not_not, Node.verifySignature, raiseIf_eq_ok]
            exact ⟨hmem, by simpa using hed⟩
  | none =>
      rw [hp] at hreg
      generalize hn : no.registry = nreg at hreg
      generalize go.registry = greg at hreg
      cases hreg
      simp only
      rw [raiseIf_bind_eq_ok, bind_eq_ok, Bool.not_eq_true, ho.publicKey.1]
      constructor
      · rintro ⟨hholder, key, hkey, h⟩
        rw [raiseIf_bind_eq_ok, not_not, Node.verifySignature, raiseIf_eq_ok] at h
        rw [orRaise_eq_ok, h.1] at hkey
        exact ⟨⟨hholder, hkey⟩, by simpa [h.1] using h.2⟩
      · rintro ⟨⟨hholder, hkey⟩, hed⟩
        refine ⟨hholder, g.kid, orRaise_eq_ok.mpr hkey, ?_⟩
        rw [raiseIf_bind_eq_ok, not_not, Node.verifySignature, raiseIf_eq_ok]
        exact ⟨rfl, by simpa using hed⟩

theorem go_trusted_iff (ho : SameOptions po no go) (hc : SameClaims p.claims n.claims g.claims) :
    (Go.trustedKey go g holder = .ok () ∧ ed g.kid g.input g.signature = true) ↔
      Trusted ed po p.claims.iss g.kid g.input g.signature holder := by
  rw [Trusted]
  refine and_congr_left fun _ => ?_
  rw [Go.trustedKey]
  have hreg := ho.registry
  cases hp : po.keyRegistry with
  | some preg =>
      rw [hp] at hreg
      generalize hn : no.registry = nreg at hreg
      generalize hg : go.registry = greg at hreg
      cases hreg with
      | present hsame =>
          have hkeys := hsame.go_mem holder hc.iss.2 g.kid
          simp only [Go.Registry.trusted, raiseIf_bind_eq_ok, raiseIf_eq_ok, not_not]
          rw [← hkeys]
          exact ⟨fun h => h.2, fun h => ⟨List.ne_nil_of_mem h, h⟩⟩
  | none =>
      rw [hp] at hreg
      generalize hn : no.registry = nreg at hreg
      generalize hg : go.registry = greg at hreg
      cases hreg
      simp only [raiseIf_bind_eq_ok, raiseIf_eq_ok, not_not, Bool.not_eq_true, ho.publicKey.2]

/-- **Python accepts the link** when it is trusted and live. -/
theorem python_core_iff (ho : SameOptions po no go) (h : SameToken token gtoken p n g)
    (hclock : SameClock no go time nclock gclock second)
    (hone : po.issuerPublicKey.isNone ≠ po.keyRegistry.isNone) {c : Python.CapabilityClaims} :
    Python.verifyCore ed po token time holder = .ok c ↔ c = p.claims ∧
      Trusted ed po p.claims.iss g.kid p.signingInput (Python.signatureOf token) holder ∧
        Python.Live po second p.claims := by
  rw [Python.verifyCore_ok, h.python, hclock.python]
  constructor
  · rintro ⟨-, -, r, hr, rfl, htrust, hlive⟩
    rw [← Except.ok.inj hr] at htrust hlive ⊢
    exact ⟨rfl, (python_trusted_iff h.kid.1 _).mp htrust, hlive⟩
  · rintro ⟨rfl, htrust, hlive⟩
    exact ⟨ho.leeway_range, hone, p, rfl, rfl, (python_trusted_iff h.kid.1 _).mpr htrust, hlive⟩

/-- **Node accepts the link** when it is trusted and live. -/
theorem node_core_iff (ho : SameOptions po no go) (h : SameToken token gtoken p n g)
    (hclock : SameClock no go time nclock gclock second) {c : Node.Claims} :
    Node.verifyCore ed no token nclock holder = .ok c ↔ c = n.claims ∧
      Trusted ed po p.claims.iss g.kid p.signingInput (Python.signatureOf token) holder ∧
        Python.Live po second p.claims := by
  obtain ⟨hinput, -, hsignature, -⟩ := h.signed
  have hpos := p.claims.iat_lt_exp
  have hrevoked := (ho.revoked _ _ h.claims.jti.2).1
  have hlive : Python.Live po second p.claims ↔
      (p.claims.exp - p.claims.iat ≤ 30 ∧ p.claims.iat - po.leewaySeconds ≤ second ∧
        second ≤ p.claims.exp + po.leewaySeconds) ∧ po.revoked p.claims.jti = false := by
    constructor
    · intro hl
      exact ⟨⟨hl.ttl_le, hl.started, hl.unexpired⟩, hl.unrevoked⟩
    · rintro ⟨⟨httl, hstart, hend⟩, hrev⟩
      exact ⟨by omega, httl, hstart, hend, hrev⟩
  rw [Node.verifyCore, h.node, bind_eq_ok]
  simp only [Except.ok.injEq, exists_eq_left']
  rw [hsignature, bind_eq_ok]
  simp only [Except.ok.injEq, exists_eq_left']
  rw [bind_eq_ok]
  simp only [node_trusted_iff ho h.claims h.kid.2, hinput]
  rw [hlive, ← checkLifetime_iff ho h.claims hclock, h.claims.jti.1, hrevoked]
  constructor
  · rintro ⟨⟨⟩, htrust, hrest⟩
    obtain ⟨⟨⟩, htime, hrest⟩ := bind_eq_ok.mp hrest
    obtain ⟨hrev, hc⟩ := raiseIf_bind_eq_ok.mp hrest
    exact ⟨(pure_eq_ok.mp hc).symm, htrust, htime, by simpa using hrev⟩
  · rintro ⟨rfl, htrust, htime, hrev⟩
    refine ⟨(), htrust, bind_eq_ok.mpr ⟨(), htime, raiseIf_bind_eq_ok.mpr ⟨?_, rfl⟩⟩⟩
    simp [hrev]

/-- **Go accepts the link** when it is trusted and live. -/
theorem go_core_iff (ho : SameOptions po no go) (h : SameToken token gtoken p n g)
    (hclock : SameClock no go time nclock gclock second)
    (hone : po.issuerPublicKey.isNone ≠ po.keyRegistry.isNone) :
    Go.verifyCore ed go g gclock holder = .ok () ↔
      Trusted ed po p.claims.iss g.kid p.signingInput (Python.signatureOf token) holder ∧
        Python.Live po second p.claims := by
  obtain ⟨-, hinput, -, hsignature⟩ := h.signed
  have hpos := p.claims.iat_lt_exp
  have hgone : ¬ go.registry.isNone = go.publicKey.isNone := by
    have hreg := ho.registry
    have hnone : go.registry.isNone = po.keyRegistry.isNone := by
      generalize po.keyRegistry = preg, no.registry = nreg, go.registry = greg at hreg
      cases hreg <;> rfl
    rw [hnone, ho.publicKey.2]
    exact fun heq => hone heq.symm
  have hrevoked : Go.checkRevoked go g.claims.jti = .ok () ↔ po.revoked p.claims.jti = false := by
    have hstore := (ho.revoked _ _ h.claims.jti.2).2
    rw [Go.checkRevoked]
    cases hr : go.revocations with
    | none => simpa [hr] using hstore
    | some isRevoked =>
        simp only [hr] at hstore
        simp only
        rw [hstore, bind_eq_ok]
        simp
  rw [Go.verifyCore, raiseIf_bind_eq_ok, bind_eq_ok]
  simp only [raiseIf_bind_eq_ok, hrevoked]
  rw [← hinput, ← hsignature, ← go_trusted_iff ho h.claims, h.claims.iat.2, h.claims.exp.2,
    ho.leewaySeconds.2, hclock.go]
  have hrange := ho.leeway_range
  constructor
  · rintro ⟨-, ⟨⟩, hkey, hed, httl, -, hstart, hend, hrev⟩
    refine ⟨⟨hkey, by simpa using hed⟩, by omega, ?_, by omega, by omega, hrev⟩
    rw [Go.maxTTLSeconds] at httl
    omega
  · rintro ⟨⟨hkey, hed⟩, hlive⟩
    have httl := hlive.ttl_le
    have hstart := hlive.started
    have hend := hlive.unexpired
    refine ⟨hgone, (), hkey, by simpa using hed, ?_, by omega, by omega, by omega, hlive.unrevoked⟩
    rw [Go.maxTTLSeconds]
    omega

end Link

/-! ## A child and its parent -/

theorem truthy_eq (o : Option Units) : Node.truthy o = Python.truthy o := by cases o <;> rfl

section Limits
variable {pp pc : Option ℤ} {np nc : Option Double} {gp gc : Option ℤ}

/-- **A count is widened alike.** -/
theorem wider_count (hp : SameCount pp np gp) (hc : SameCount pc nc gc) :
    Node.limitIsWider nc np = Python.limitIsWider (pc.map .int) (pp.map .int) ∧
      Go.wider gc gp = Python.limitIsWider (pc.map .int) (pp.map .int) := by
  cases hp with
  | unlimited => exact ⟨rfl, rfl⟩
  | limit hp =>
      cases hc with
      | unlimited => exact ⟨rfl, rfl⟩
      | limit hc =>
          have hcast : ∀ x y : ℤ, ((x : ℚ) < (y : ℚ)) ↔ x < y := fun x y => Int.cast_lt
          constructor
          · rw [Node.limitIsWider, Js.isFinite_value hc.1, Js.lessThan_value hp.1 hc.1]
            simp [Python.limitIsWider, Python.Scalar.isFinite, Python.Scalar.gt,
              Python.Scalar.denote]
          · rw [Go.wider, hp.2, hc.2]
            simp [Python.limitIsWider, Python.Scalar.isFinite, Python.Scalar.gt,
              Python.Scalar.denote]

end Limits

/-- **No capability is uncovered alike.** -/
theorem uncovered_iff {caps granted : List Units} {gcaps ggranted : List Bytes}
    (hcaps : List.Forall₂ SameText caps gcaps) (hgranted : List.Forall₂ SameText granted ggranted) :
    (gcaps.any fun capability => !Go.covered capability ggranted) = false ↔
      ∀ c ∈ caps, Python.capabilityCovered c granted = true := by
  induction hcaps with
  | nil => simp
  | cons hcap _ ih =>
      rw [List.any_cons, Bool.or_eq_false_iff, ih, List.forall_mem_cons, Bool.not_eq_false',
        covered_agrees hcap hgranted]

theorem denote_of_value {d : Double} {q : ℚ} (h : d.value? = some q) : d.denote = some (.inl q) := by
  cases d with
  | finite neg mag => exact congrArg (fun q => some (Sum.inl q)) (Option.some.inj h)
  | inf neg => exact nomatch h
  | nan => exact nomatch h

/-- **An amount is widened alike.** -/
theorem wider_amount {pp pc np nc : Option Double} {gp gc : Option ℚ} :
    SameAmount pp np gp → SameAmount pc nc gc →
    Node.limitIsWider nc np = Python.limitIsWider (pc.map .float) (pp.map .float) ∧
      (match gp, gc with
        | none, _ => false
        | some _, none => true
        | some p, some q => decide (q > p)) =
        Python.limitIsWider (pc.map .float) (pp.map .float) := by
  intro hp hc
  cases hp with
  | unlimited => exact ⟨rfl, rfl⟩
  | limit hp hp' =>
      cases hc with
      | unlimited => exact ⟨rfl, rfl⟩
      | limit hc hc' =>
          have hgt := denote_of_value hp
          have hgt' := denote_of_value hc
          constructor
          · rw [Node.limitIsWider, Js.isFinite_value hc', Js.lessThan_value hp' hc']
            simp [Python.limitIsWider, Python.Scalar.isFinite, Python.Scalar.gt,
              Python.Scalar.denote, hgt, hgt']
          · simp [Python.limitIsWider, Python.Scalar.isFinite, Python.Scalar.gt,
              Python.Scalar.denote, hgt, hgt']

section Attenuation
variable {pp pc : Python.CapabilityClaims} {np nc : Node.Claims} {gp gc : Go.Claims}
  (hp : SameClaims pp np gp) (hc : SameClaims pc nc gc)
include hp hc

/-- **Node accepts the child** that Python accepts. -/
theorem node_attenuated_iff : Node.assertAttenuated np nc = .ok () ↔ Python.Attenuated pp pc := by
  have hcalls := (wider_count hp.constraints.maxCalls hc.constraints.maxCalls).1
  have hamount := (wider_amount hp.constraints.maxAmountUsd hc.constraints.maxAmountUsd).1
  have hrate := (wider_count hp.constraints.rateLimitPerMin hc.constraints.rateLimitPerMin).1
  have hpins := keepsPin_iff hp.constraints.allowedParams hc.constraints.allowedParams
  have hcast : ∀ x y : ℤ, ((x : ℚ) < (y : ℚ)) ↔ x < y := fun x y => Int.cast_lt
  simp only [Node.assertAttenuated, raiseIf_bind_eq_ok, forM_bind_eq_ok, forM_eq_ok, raiseIf_eq_ok,
    Node.Constraints.limits, List.zip_cons_cons, List.zip_nil_right, List.forall_mem_cons,
    List.not_mem_nil, false_imp_iff, implies_true, and_true, truthy_eq, hp.prf.1, hp.dlg.1,
    hc.dlg.1, hc.iss.1, hc.jti.1, hp.jti.1, hc.sub.1, hp.sub.1, hc.capabilities.1,
    hp.capabilities.1, hp.constraints.sharedBudget.1, hc.constraints.sharedBudget.1, hcalls, hamount,
    hrate, Js.lessThan_value hc.iat.1 hp.iat.1, Js.lessThan_value hp.exp.1 hc.exp.1, hcast,
    Bool.not_eq_true, Bool.not_eq_true', Bool.not_eq_false, Bool.or_eq_true, decide_eq_true_eq,
    not_or, not_not, not_and, not_lt, hpins]
  constructor
  · rintro ⟨hprf, hdlg, hjti, hleaf, hsub, hlife, hcaps, hbudget, ⟨hcalls, hamount, hrate⟩, hpin⟩
    exact ⟨fun h => hjti h.symm, hprf, hdlg, hleaf, hsub, hlife.1, hlife.2, hcaps,
      ⟨hbudget, hcalls, hamount, hrate, hpin⟩⟩
  · rintro ⟨hjti, hprf, hdlg, hleaf, hsub, hiat, hexp, hcaps, hcon⟩
    exact ⟨hprf, hdlg, fun h => hjti h.symm, hleaf, hsub, ⟨hiat, hexp⟩, hcaps, hcon.sharedBudget,
      ⟨hcon.maxCalls, hcon.maxAmountUsd, hcon.rateLimitPerMin⟩, hcon.pinned⟩

/-- **Go accepts the child** of a parent without a parent that Python accepts. -/
theorem go_attenuated_iff (hroot : pp.prf = none)
    (hgp : Go.Decoded (.obj gp.constraints.allowedParams))
    (hgc : Go.Decoded (.obj gc.constraints.allowedParams)) :
    Go.bad gp gc = false ↔ Python.Attenuated pp pc := by
  have hcalls := (wider_count hp.constraints.maxCalls hc.constraints.maxCalls).2
  have hamount := (wider_amount hp.constraints.maxAmountUsd hc.constraints.maxAmountUsd).2
  have hrate := (wider_count hp.constraints.rateLimitPerMin hc.constraints.rateLimitPerMin).2
  have hpins := checkPins_iff hp.constraints.allowedParams hc.constraints.allowedParams hgp hgc
  have hiss : pc.iss ≠ [] := by
    have hv := pc.valid
    simp only [Python.ClaimFields.valid, Python.nonEmptyText, Bool.and_eq_true,
      decide_eq_true_eq] at hv
    exact hv.1.1.1.1.1.1.1.1.1.1
  have hcaps := uncovered_iff hc.capabilities.2 hp.capabilities.2
  simp only [Go.bad, hcalls, hrate, Bool.or_eq_false_iff, decide_eq_false_iff_not, hcaps,
    Bool.and_eq_false_iff, hp.dlg.2.eq_nil, hc.dlg.2.eq_nil,
    hp.dlg.2.eq_some hc.iss.2 hiss, hp.jti.2.inj hc.jti.2, hp.sub.2.inj hc.sub.2, hc.iat.2, hp.iat.2,
    hc.exp.2, hp.exp.2, hp.constraints.sharedBudget.2.eq_nil,
    hc.constraints.sharedBudget.2.inj hp.constraints.sharedBudget.2, not_not, hpins, not_lt, gt_iff_lt,
    ne_eq]
  constructor
  · rintro ⟨⟨⟨⟨⟨⟨⟨⟨⟨⟨⟨⟨hdlg, hiss⟩, hleaf⟩, hjti⟩, hsub⟩, hiat⟩, hexp⟩, hbudget⟩, hcap⟩, hcalls⟩, hrate⟩,
      hwider⟩, hpin⟩
    refine ⟨hjti, by rw [hroot]; rfl, ⟨?_, hiss⟩, by rw [hleaf]; rfl, hsub.symm, hiat, hexp, hcap,
      ⟨?_, hcalls, hamount.symm.trans hwider, hrate, hpin⟩⟩
    · rw [pp.truthy_dlg]
      exact Option.isSome_iff_ne_none.mpr hdlg
    · intro hne
      exact hbudget.resolve_left hne
  · rintro ⟨hjti, -, ⟨hdlg, hiss⟩, hleaf, hsub, hiat, hexp, hcap, hcon⟩
    rw [pp.truthy_dlg] at hdlg
    rw [pc.truthy_dlg] at hleaf
    refine ⟨⟨⟨⟨⟨⟨⟨⟨⟨⟨⟨⟨Option.isSome_iff_ne_none.mp hdlg, hiss⟩, ?_⟩, hjti⟩, hsub.symm⟩, hiat⟩, hexp⟩, ?_⟩,
      hcap⟩, hcon.maxCalls⟩, hcon.rateLimitPerMin⟩,
      hamount.trans hcon.maxAmountUsd⟩, hcon.pinned⟩
    · simpa using hleaf
    · by_cases hnone : pp.constraints.sharedBudget = none
      · exact Or.inl hnone
      · exact Or.inr (hcon.sharedBudget hnone)

end Attenuation

/-! ## Verification -/

/-- What the three ask of a token and its parent. -/
structure Accepts (ed : Python.SignatureCheck) (po : Python.VerifyOptions) (second second' : ℤ)
    (token : Units) (p pp : Python.Parsed) (kid pkid : Bytes) : Prop where
  one : po.issuerPublicKey.isNone ≠ po.keyRegistry.isNone
  trusted : Trusted ed po p.claims.iss kid p.signingInput (Python.signatureOf token)
    p.claims.prf.isSome
  live : Python.Live po second p.claims
  audience : ∀ a, po.audience = some a → p.claims.sub = a
  leaf : p.claims.prf = none → p.claims.dlg = none
  parent : ∀ prf, p.claims.prf = some prf → pp.claims.prf = none ∧
    Trusted ed po pp.claims.iss pkid pp.signingInput (Python.signatureOf prf) false ∧
      Python.Live po second' pp.claims ∧ Python.Attenuated pp.claims p.claims

section Verify
variable {ed : Python.SignatureCheck} {po : Python.VerifyOptions} {no : Node.VerifyOptions}
  {go : Go.VerifyOptions} {token : Units} {gtoken : Bytes} {p pp : Python.Parsed}
  {n np : Node.Parsed} {g gp : Go.Parsed} {time nclock gclock time' nclock' gclock' : ℚ}
  {second second' : ℤ}
  (ho : SameOptions po no go) (h : SameToken token gtoken p n g)
  (hparent : ∀ prf, p.claims.prf = some prf → SameToken prf g.claims.parent pp np gp)
  (hclock : SameClock no go time nclock gclock second)
  (hclock' : SameClock no go time' nclock' gclock' second')
include ho h hparent hclock hclock'

theorem python_verify_iff {c : Python.CapabilityClaims} :
    Python.verify ed po token time time' = .ok c ↔
      c = p.claims ∧ Accepts ed po second second' token p pp g.kid gp.kid := by
  rw [Python.verify_ok]
  constructor
  · rintro ⟨-, hcore, haud, hleaf, hchild⟩
    obtain ⟨-, hone, -⟩ := Python.verifyCore_ok.mp hcore
    obtain ⟨rfl, htrust, hlive⟩ := (python_core_iff ho h hclock hone).mp hcore
    refine ⟨rfl, hone, htrust, hlive, haud, hleaf, fun prf hprf => ?_⟩
    obtain ⟨parent, hroot, hcore', hatt⟩ := hchild prf hprf
    obtain ⟨rfl, htrust', hlive'⟩ := (python_core_iff ho (hparent prf hprf) hclock' hone).mp hcore'
    exact ⟨hroot, htrust', hlive', hatt⟩
  · rintro ⟨rfl, hacc⟩
    refine ⟨fun hprf => ?_, (python_core_iff ho h hclock hacc.one).mpr ⟨rfl, hacc.trusted, hacc.live⟩,
      hacc.audience, hacc.leaf, fun prf hprf => ?_⟩
    · have htrust := hacc.trusted.1
      cases hreg : po.keyRegistry with
      | some reg => rfl
      | none =>
          rw [hreg] at htrust
          rw [hprf] at htrust
          exact absurd htrust.1 (by simp)
    · obtain ⟨hroot, htrust', hlive', hatt⟩ := hacc.parent prf hprf
      exact ⟨pp.claims, hroot, (python_core_iff ho (hparent prf hprf) hclock' hacc.one).mpr
        ⟨rfl, htrust', hlive'⟩, hatt⟩

theorem node_verify_iff {c : Node.Claims} :
    Node.verify ed no token nclock nclock' = .ok c ↔
      c = n.claims ∧ Accepts ed po second second' token p pp g.kid gp.kid := by
  have hreg : no.registry.isNone = po.keyRegistry.isNone := by
    have hsame := ho.registry
    generalize po.keyRegistry = preg, no.registry = nreg, go.registry = greg at hsame
    cases hsame <;> rfl
  have hone : (no.publicKey.isSome = no.registry.isSome) ↔
      po.issuerPublicKey.isNone = po.keyRegistry.isNone := by
    rw [← hreg, ho.publicKey.1]
    cases po.issuerPublicKey <;> cases no.registry <;> simp
  have haud : ¬ (no.audience ≠ none ∧ no.audience ≠ some n.claims.sub) ↔
      ∀ a, po.audience = some a → p.claims.sub = a := by
    rw [ho.audience.1, h.claims.sub.1]
    cases po.audience <;> simp [eq_comm]
  rw [Node.verify, h.node, bind_eq_ok]
  simp only [Except.ok.injEq, exists_eq_left', raiseIf_bind_eq_ok, truthy_eq, h.claims.prf.1,
    p.claims.truthy_prf, hone, hreg]
  constructor
  · rintro ⟨-, hone, hrest⟩
    obtain ⟨c', hcore, hrest⟩ := bind_eq_ok.mp hrest
    obtain ⟨rfl, htrust, hlive⟩ := (node_core_iff ho h hclock).mp hcore
    obtain ⟨haudience, hrest⟩ := raiseIf_bind_eq_ok.mp hrest
    rw [haud] at haudience
    rw [h.claims.prf.1, p.claims.truthy_prf, h.claims.dlg.1, p.claims.truthy_dlg] at hrest
    cases hprf : p.claims.prf with
    | none =>
        rw [hprf] at hrest htrust
        simp only [Option.isSome_none, Bool.false_eq_true, if_false, raiseIf_bind_eq_ok,
          pure_eq_ok, Bool.not_eq_true, Option.isSome_eq_false_iff,
          Option.isNone_iff_eq_none] at hrest
        refine ⟨hrest.2.symm, hone, by rwa [hprf], hlive, haudience, fun _ => hrest.1, ?_⟩
        intro prf hsome
        rw [hprf] at hsome
        cases hsome
    | some prf =>
        rw [hprf] at hrest htrust
        have hp := hparent prf hprf
        simp only [Option.isSome_some, if_true, Option.getD_some, hp.node] at hrest
        obtain ⟨np', hnp, hrest⟩ := bind_eq_ok.mp hrest
        obtain rfl := Except.ok.inj hnp
        obtain ⟨hroot, hrest⟩ := raiseIf_bind_eq_ok.mp hrest
        obtain ⟨parent, hcore', hrest⟩ := bind_eq_ok.mp hrest
        obtain ⟨rfl, htrust', hlive'⟩ := (node_core_iff ho hp hclock').mp hcore'
        obtain ⟨⟨⟩, hatt, hrest⟩ := bind_eq_ok.mp hrest
        rw [hp.claims.prf.1, pp.claims.truthy_prf] at hroot
        refine ⟨(pure_eq_ok.mp hrest).symm, hone, by rwa [hprf], hlive, haudience, ?_, ?_⟩
        · intro hnone
          rw [hprf] at hnone
          cases hnone
        · intro prf' hprf'
          rw [hprf] at hprf'
          obtain rfl := Option.some.inj hprf'
          exact ⟨by simpa using hroot, htrust', hlive',
            (node_attenuated_iff hp.claims h.claims).mp hatt⟩
  · rintro ⟨rfl, hacc⟩
    refine ⟨?_, hacc.one, bind_eq_ok.mpr ⟨_, (node_core_iff ho h hclock).mpr
      ⟨rfl, hacc.trusted, hacc.live⟩, raiseIf_bind_eq_ok.mpr ⟨haud.mpr hacc.audience, ?_⟩⟩⟩
    · rintro ⟨hsome, hnone⟩
      have htrust := hacc.trusted.1
      rw [Option.isNone_iff_eq_none] at hnone
      rw [hnone, hsome] at htrust
      exact absurd htrust.1 (by simp)
    · rw [h.claims.prf.1, p.claims.truthy_prf, h.claims.dlg.1, p.claims.truthy_dlg]
      cases hprf : p.claims.prf with
      | none => simp [hacc.leaf hprf]
      | some prf =>
          obtain ⟨hroot, htrust', hlive', hatt⟩ := hacc.parent prf hprf
          have hp := hparent prf hprf
          simp only [Option.isSome_some, if_true, Option.getD_some, hp.node]
          refine bind_eq_ok.mpr ⟨np, rfl, raiseIf_bind_eq_ok.mpr ⟨?_, bind_eq_ok.mpr ⟨_,
            (node_core_iff ho hp hclock').mpr ⟨rfl, htrust', hlive'⟩, bind_eq_ok.mpr ⟨(),
              (node_attenuated_iff hp.claims h.claims).mpr hatt, rfl⟩⟩⟩⟩
          rw [hp.claims.prf.1, hroot]
          simp [Python.truthy]

/-- The chain that Go reports of a token, under its parent if it has one. -/
def chainOf (prf : Option Units) (parent child : Go.Claims) : List Go.Claims :=
  if prf.isSome then [parent, child] else [child]

theorem go_verify_iff {v : Go.Verified} :
    Go.verify ed go gtoken gclock gclock' = .ok v ↔
      v = ⟨g.claims, chainOf p.claims.prf gp.claims g.claims⟩ ∧
        Accepts ed po second second' token p pp g.kid gp.kid := by
  have hprf : ∀ (q : Python.Parsed) (r : Go.Parsed), SameOptText q.claims.prf r.claims.parent →
      (r.claims.parent ≠ [] ↔ q.claims.prf.isSome = true) := by
    intro q r hq
    rw [ne_eq, hq.eq_nil, Option.isSome_iff_ne_none]
  have haud : ¬ (go.audience ≠ [] ∧ go.audience ≠ g.claims.sub) ↔
      ∀ a, po.audience = some a → p.claims.sub = a := by
    have hsub : p.claims.sub ≠ [] := by
      have hv := p.claims.valid
      simp only [Python.ClaimFields.valid, Python.nonEmptyText, Bool.and_eq_true,
        decide_eq_true_eq] at hv
      exact hv.1.1.1.1.1.1.1.1.2.1
    rw [ne_eq, ho.audience.2.eq_nil, ne_eq, ho.audience.2.eq_some h.claims.sub.2 hsub]
    cases po.audience <;> simp [eq_comm]
  have hdlg : g.claims.delegate ≠ [] ↔ p.claims.dlg ≠ none := by
    rw [ne_eq, h.claims.dlg.2.eq_nil]
  rw [Go.verify, h.go, bind_eq_ok]
  simp only [Except.ok.injEq, exists_eq_left']
  rw [bind_eq_ok]
  constructor
  · rintro ⟨⟨⟩, hcore, hrest⟩
    have hone : po.issuerPublicKey.isNone ≠ po.keyRegistry.isNone := by
      obtain ⟨hgone, -⟩ := raiseIf_bind_eq_ok.mp hcore
      have hsame := ho.registry
      have hnone : go.registry.isNone = po.keyRegistry.isNone := by
        generalize po.keyRegistry = preg, no.registry = nreg, go.registry = greg at hsame
        cases hsame <;> rfl
      rw [hnone, ho.publicKey.2] at hgone
      exact fun heq => hgone heq.symm
    obtain ⟨htrust, hlive⟩ := (go_core_iff ho h hclock hone).mp hcore
    obtain ⟨haudience, hrest⟩ := raiseIf_bind_eq_ok.mp hrest
    rw [haud] at haudience
    have hholder := hprf p g h.claims.prf.2
    cases hp : p.claims.prf with
    | none =>
        rw [hp] at hholder
        have hnil : ¬ g.claims.parent ≠ [] := by simp [hholder]
        rw [if_neg hnil, raiseIf_bind_eq_ok, hdlg, not_not, pure_eq_ok] at hrest
        have hdecide : decide (g.claims.parent ≠ []) = p.claims.prf.isSome := by
          rw [hp]
          exact decide_eq_false hnil
        rw [hdecide] at htrust
        refine ⟨hrest.2.symm, hone, htrust, hlive, haudience, fun _ => hrest.1, ?_⟩
        intro prf hsome
        rw [hp] at hsome
        cases hsome
    | some prf =>
        rw [hp] at hholder
        have hne : g.claims.parent ≠ [] := hholder.mpr rfl
        have hsame := hparent prf hp
        rw [if_pos hne, hsame.go] at hrest
        obtain ⟨gp', hgp, hrest⟩ := bind_eq_ok.mp hrest
        obtain rfl := Except.ok.inj hgp
        obtain ⟨hroot, hrest⟩ := raiseIf_bind_eq_ok.mp hrest
        obtain ⟨⟨⟩, hcore', hrest⟩ := bind_eq_ok.mp hrest
        obtain ⟨htrust', hlive'⟩ := (go_core_iff ho hsame hclock' hone).mp hcore'
        obtain ⟨hbad, hrest⟩ := raiseIf_bind_eq_ok.mp hrest
        have hdecide : decide (g.claims.parent ≠ []) = p.claims.prf.isSome := by
          rw [hp]
          exact decide_eq_true hne
        rw [hdecide] at htrust
        rw [hprf pp gp hsame.claims.prf.2, Bool.not_eq_true, Option.isSome_eq_false_iff,
          Option.isNone_iff_eq_none] at hroot
        refine ⟨(pure_eq_ok.mp hrest).symm, hone, htrust, hlive, haudience, ?_, ?_⟩
        · intro hnone
          rw [hp] at hnone
          cases hnone
        · intro prf' hprf'
          rw [hp] at hprf'
          obtain rfl := Option.some.inj hprf'
          refine ⟨hroot, htrust', hlive', ?_⟩
          exact (go_attenuated_iff hsame.claims h.claims hroot (Go.parse_decoded hsame.go)
            (Go.parse_decoded h.go)).mp (by simpa using hbad)
  · rintro ⟨rfl, hacc⟩
    have hholder := hprf p g h.claims.prf.2
    have hdecide : decide (g.claims.parent ≠ []) = p.claims.prf.isSome := by
      rw [Bool.eq_iff_iff, decide_eq_true_iff]
      exact hholder
    refine ⟨(), ?_, raiseIf_bind_eq_ok.mpr ⟨haud.mpr hacc.audience, ?_⟩⟩
    · rw [hdecide]
      exact (go_core_iff ho h hclock hacc.one).mpr ⟨hacc.trusted, hacc.live⟩
    · cases hp : p.claims.prf with
      | none =>
          rw [hp] at hholder
          have hnil : ¬ g.claims.parent ≠ [] := by simp [hholder]
          rw [if_neg hnil, raiseIf_bind_eq_ok, hdlg, not_not]
          exact ⟨hacc.leaf hp, rfl⟩
      | some prf =>
          rw [hp] at hholder
          obtain ⟨hroot, htrust', hlive', hatt⟩ := hacc.parent prf hp
          have hsame := hparent prf hp
          rw [if_pos (hholder.mpr rfl), hsame.go]
          refine bind_eq_ok.mpr ⟨gp, rfl, raiseIf_bind_eq_ok.mpr ⟨?_, bind_eq_ok.mpr ⟨(),
            (go_core_iff ho hsame hclock' hacc.one).mpr ⟨htrust', hlive'⟩,
              raiseIf_bind_eq_ok.mpr ⟨?_, rfl⟩⟩⟩⟩
          · rw [hprf pp gp hsame.claims.prf.2, hroot]
            simp
          · rw [(go_attenuated_iff hsame.claims h.claims hroot (Go.parse_decoded hsame.go)
              (Go.parse_decoded h.go)).mpr hatt]
            simp

/-- **The three verifiers agree**: on a token, and a parent inside it, that they parse to the
same claims and key ids, they all return or none does, with the same claims; and Go's chain
is the parent and the child that Python and Node compare. -/
theorem verifiers_agree :
    (Python.verify ed po token time time' = .ok p.claims ∧
      Node.verify ed no token nclock nclock' = .ok n.claims ∧
      Go.verify ed go gtoken gclock gclock' =
        .ok ⟨g.claims, chainOf p.claims.prf gp.claims g.claims⟩) ∨
    ((∀ c, Python.verify ed po token time time' ≠ .ok c) ∧
      (∀ c, Node.verify ed no token nclock nclock' ≠ .ok c) ∧
      ∀ v, Go.verify ed go gtoken gclock gclock' ≠ .ok v) := by
  by_cases hacc : Accepts ed po second second' token p pp g.kid gp.kid
  · left
    exact ⟨(python_verify_iff ho h hparent hclock hclock').mpr ⟨rfl, hacc⟩,
      (node_verify_iff ho h hparent hclock hclock').mpr ⟨rfl, hacc⟩,
      (go_verify_iff ho h hparent hclock hclock').mpr ⟨rfl, hacc⟩⟩
  · right
    exact ⟨fun c hc => hacc ((python_verify_iff ho h hparent hclock hclock').mp hc).2,
      fun c hc => hacc ((node_verify_iff ho h hparent hclock hclock').mp hc).2,
      fun v hv => hacc ((go_verify_iff ho h hparent hclock hclock').mp hv).2⟩

end Verify

/-! ## A delegated token -/

/-- A limit and a pin. -/
def sampleConstraints : Python.Constraints :=
  ⟨{ maxCalls := some 3, allowedParams := [("to", .str "ops")] }, by decide +kernel, by decide +kernel⟩

/-- The root claims of an agent, for a helper. -/
def sampleParent : Python.CapabilityClaims :=
  ⟨{ Python.sampleClaims.toClaimFields with
     constraints := sampleConstraints, dlg := some "helper" }, by decide +kernel⟩

/-- The claims of the helper's child. -/
def sampleChild : Python.CapabilityClaims :=
  ⟨{ iss := "helper", sub := "server", capabilities := ["mail:send"], iat := 1001, exp := 1009,
     jti := "j2", constraints := sampleConstraints,
     prf := some (Python.sampleToken sampleParent) }, by decide +kernel⟩

/-- A token as Python parses it. -/
def samplePython (token : Units) : Python.Parsed :=
  match Python.parse token with
  | .ok p => p
  | .error _ => ⟨[], Python.sampleClaims, []⟩

/-- A token as Node parses it. -/
def sampleNode (token : Units) : Node.Parsed :=
  match Node.parse token with
  | .ok n => n
  | .error _ => ⟨[], Node.readClaims [], []⟩

/-- A token as Go parses it. -/
def sampleGo (token : Units) : Go.Parsed :=
  match Go.parse (octets token) with
  | .ok g => g
  | .error _ => ⟨⟨[], [], [], [], 0, 0, {}, [], []⟩, [], [], []⟩

instance (s : Units) (b : Bytes) : Decidable (SameText s b) :=
  inferInstanceAs (Decidable (_ ∧ _))

instance (n : ℤ) (d : Double) (k : ℤ) : Decidable (SameInt n d k) :=
  inferInstanceAs (Decidable (_ ∧ _))

/-- The claims of the sample tokens in Node. -/
def nodeClaims (c : Python.CapabilityClaims) : Node.Claims where
  iss := c.iss
  sub := c.sub
  jti := c.jti
  capabilities := c.capabilities
  iat := .ofInt c.iat
  exp := .ofInt c.exp
  constraints := { maxCalls := some (.ofInt 3), allowedParams := [("to", .str "ops")] }
  dlg := c.dlg
  prf := c.prf

/-- The claims of the sample tokens in Go. -/
def goClaims (c : Python.CapabilityClaims) : Go.Claims where
  iss := octets c.iss
  sub := octets c.sub
  jti := octets c.jti
  capabilities := c.capabilities.map octets
  iat := c.iat
  exp := c.exp
  constraints := { maxCalls := some 3, allowedParams := [("to", .str "ops")] }
  delegate := octets (c.dlg.getD [])
  parent := octets (c.prf.getD [])

theorem parsed_of_any {ε α : Type} {r : Except ε α} {q : α → Bool}
    (h : r.toOption.any q = true) : ∃ a, r = .ok a ∧ q a = true := by
  cases r with
  | error e => exact nomatch h
  | ok a => exact ⟨a, rfl, h⟩

/-- What an evaluation checks of the token of `c`: its texts and numbers are the same for the three,
and Node and Go parse it to `nodeClaims c` and `goClaims c`. -/
def Sampled (c : Python.CapabilityClaims) : Prop :=
  (c.sorted = c ∧ c.constraints = sampleConstraints) ∧
  ((∀ s ∈ [c.iss, c.sub, c.jti] ++ c.capabilities, SameText s (octets s)) ∧
    ∀ o ∈ [c.dlg, c.prf], ∀ s ∈ o, s ≠ [] ∧ SameText s (octets s)) ∧
  ((∀ n ∈ [3, c.iat, c.exp], SameInt n (.ofInt n) n) ∧
    nodeView (.obj [("to", .str "ops")]) = pythonView (.obj [("to", .str "ops")]) ∧
    goView (.obj [("to", .str "ops")]) = pythonView (.obj [("to", .str "ops")])) ∧
  SameText (Python.sampleToken c) (octets (Python.sampleToken c)) ∧
  (Node.parse (Python.sampleToken c)).toOption.any (fun n =>
    n.claims = nodeClaims c ∧ Node.kidBytes n.header = .ok Python.sampleKey.publicBytes) = true ∧
  (Go.parse (octets (Python.sampleToken c))).toOption.any (fun g =>
    g.claims = goClaims c ∧ g.kid = Python.sampleKey.publicBytes) = true

instance (c : Python.CapabilityClaims) : Decidable (Sampled c) :=
  inferInstanceAs (Decidable (_ ∧ _))

set_option maxRecDepth 100000 in
/-- Both tokens are so, the child narrows its parent, and the clocks and options are the same. -/
theorem sampled : Sampled sampleParent ∧ Sampled sampleChild ∧
    Python.assertAttenuated sampleParent sampleChild = .ok () ∧
    (∀ n ∈ [2, 1005], SameInt n (.ofInt n) n) ∧
    Python.kidBytes (Python.headerDict Python.sampleKey.publicKeyId).sorted =
      .ok Python.sampleKey.publicBytes := by
  decide +kernel

theorem sameOptText_octets {o : Option Units} (h : ∀ s ∈ o, s ≠ [] ∧ SameText s (octets s)) :
    SameOptText o (octets (o.getD [])) := by
  cases o with
  | none => exact .absent
  | some s => exact .present (h s rfl).1 (h s rfl).2

/-- The three read the same claims of a sample token. -/
theorem Sampled.claims {c : Python.CapabilityClaims} (h : Sampled c) :
    SameClaims c (nodeClaims c) (goClaims c) := by
  obtain ⟨⟨-, hconstraints⟩, ⟨htext, hopt⟩, ⟨hint, hnode, hgo⟩, -⟩ := h
  have hsame : SameConstraints c.constraints (nodeClaims c).constraints (goClaims c).constraints := by
    rw [hconstraints]
    exact ⟨.limit (hint 3 (by simp)), .unlimited, .unlimited, ⟨hnode, hgo⟩, rfl, .absent⟩
  refine ⟨⟨rfl, htext _ (by simp)⟩, ⟨rfl, htext _ (by simp)⟩, ⟨rfl, htext _ (by simp)⟩, ⟨rfl, ?_⟩,
    hsame, hint _ (by simp), hint _ (by simp), ⟨rfl, sameOptText_octets (hopt _ (by simp))⟩,
    ⟨rfl, sameOptText_octets (hopt _ (by simp))⟩⟩
  rw [goClaims, List.forall₂_map_right_iff, List.forall₂_same]
  exact fun s hs => htext s (List.mem_append_right _ hs)

/-- Python parses a sample token to its claims. -/
theorem parse_sampleToken {c : Python.CapabilityClaims} (hsorted : c.sorted = c) :
    ∃ input, Python.parse (Python.sampleToken c) =
        .ok ⟨(Python.headerDict Python.sampleKey.publicKeyId).sorted, c, input⟩ ∧
      Python.signatureOf (Python.sampleToken c) = Python.sampleKey.sign input := by
  obtain ⟨token, input, hsign, hparse, hsignature⟩ := Python.parse_sign Python.sampleKey c
  have htoken : Python.sampleToken c = token := by rw [Python.sampleToken, hsign]
  rw [hsorted] at hparse
  rw [htoken]
  exact ⟨input, hparse, hsignature⟩

theorem samplePython_eq {c : Python.CapabilityClaims} (hsorted : c.sorted = c) :
    ∃ input, samplePython (Python.sampleToken c) =
        ⟨(Python.headerDict Python.sampleKey.publicKeyId).sorted, c, input⟩ ∧
      Python.signatureOf (Python.sampleToken c) = Python.sampleKey.sign input := by
  obtain ⟨input, hparse, hsignature⟩ := parse_sampleToken hsorted
  exact ⟨input, by rw [samplePython, hparse], hsignature⟩

/-- What the three parse of a sample token. -/
theorem Sampled.token {c : Python.CapabilityClaims} (h : Sampled c) :
    SameToken (Python.sampleToken c) (octets (Python.sampleToken c))
      (samplePython (Python.sampleToken c)) (sampleNode (Python.sampleToken c))
      (sampleGo (Python.sampleToken c)) ∧
    (sampleGo (Python.sampleToken c)).claims = goClaims c ∧
    (sampleGo (Python.sampleToken c)).kid = Python.sampleKey.publicBytes := by
  have hc := h.claims
  obtain ⟨⟨hsorted, -⟩, -, -, htext, hnode, hgo⟩ := h
  obtain ⟨input, hp, -⟩ := parse_sampleToken hsorted
  obtain ⟨n, hn, hnq⟩ := parsed_of_any hnode
  obtain ⟨g, hg, hgq⟩ := parsed_of_any hgo
  rw [decide_eq_true_iff] at hnq hgq
  rw [samplePython, sampleNode, sampleGo, hp, hn, hg]
  refine ⟨⟨htext, hp, hn, hg, ?_, ?_⟩, hgq⟩
  · rw [hnq.1, hgq.1]
    exact hc
  · rw [hnq.2, hgq.2]
    exact ⟨sampled.2.2.2.2, rfl⟩

/-- `sampleKey` is the root key and the holder key of every agent in Python. -/
def samplePythonOptions : Python.VerifyOptions :=
  { keyRegistry := some ⟨fun _ => [Python.sampleKey.publicBytes],
      fun _ => [Python.sampleKey.publicBytes]⟩ }

/-- In Node. -/
def sampleNodeOptions : Node.VerifyOptions :=
  { registry := some ⟨fun _ => [Python.sampleKey.publicBytes],
      fun _ => [Python.sampleKey.publicBytes]⟩ }

/-- And in Go. -/
def sampleGoOptions : Go.VerifyOptions :=
  { registry := some ⟨fun _ => [Python.sampleKey.publicBytes],
      fun _ => [Python.sampleKey.publicBytes]⟩ }

theorem sameOptions_sample : SameOptions samplePythonOptions
    sampleNodeOptions sampleGoOptions where
  publicKey := ⟨rfl, rfl⟩
  registry := .present ⟨fun _ _ _ _ => ⟨Iff.rfl, Iff.rfl⟩, fun _ _ _ _ => ⟨Iff.rfl, Iff.rfl⟩⟩
  audience := ⟨rfl, .absent⟩
  leewaySeconds := sampled.2.2.2.1 2 (by simp)
  leeway_range := by decide
  revoked := fun _ _ _ => ⟨rfl, rfl⟩

/-- The helper's child is what the three ask for. -/
theorem accepts_sampleChild : Accepts Python.sampleCheck samplePythonOptions 1005 1005
    (Python.sampleToken sampleChild) (samplePython (Python.sampleToken sampleChild))
    (samplePython (Python.sampleToken sampleParent)) Python.sampleKey.publicBytes
    Python.sampleKey.publicBytes := by
  obtain ⟨input, hchild, hsignature⟩ := samplePython_eq sampled.2.1.1.1
  obtain ⟨input', hparent, hsignature'⟩ := samplePython_eq sampled.1.1.1
  have hchecked : ∀ data, Python.sampleCheck Python.sampleKey.publicBytes data
      (Python.sampleKey.sign data) = true := by simp [Python.sampleCheck]
  have hone : Python.sampleKey.publicBytes ∈ [Python.sampleKey.publicBytes] :=
    List.mem_singleton_self _
  have hlive : Python.Live samplePythonOptions 1005 sampleChild :=
    ⟨by decide, by decide, by decide, by decide, rfl⟩
  have hlive' : Python.Live samplePythonOptions 1005 sampleParent :=
    ⟨by decide, by decide, by decide, by decide, rfl⟩
  have hattenuated : Python.Attenuated sampleParent sampleChild :=
    Python.assertAttenuated_ok.mp sampled.2.2.1
  rw [hchild, hparent]
  refine ⟨by decide, ⟨hone, ?_⟩, hlive, nofun, fun _ => rfl, fun prf hprf =>
    ⟨rfl, ⟨hone, ?_⟩, hlive', hattenuated⟩⟩
  · rw [hsignature]
    exact hchecked input
  · rw [← Option.some.inj hprf, hsignature']
    exact hchecked input'

theorem verifiers_agree_sample :
    Node.verify Python.sampleCheck sampleNodeOptions (Python.sampleToken sampleChild) 1005 1005 =
        .ok (sampleNode (Python.sampleToken sampleChild)).claims ∧
      (Go.verify Python.sampleCheck sampleGoOptions (octets (Python.sampleToken sampleChild))
        1005 1005).toOption.map (fun v => v.chain.length) = some 2 := by
  obtain ⟨hsame, hgo, hkid⟩ := sampled.2.1.token
  obtain ⟨hsame', -, hkid'⟩ := sampled.1.token
  obtain ⟨input, hchild, -⟩ := samplePython_eq sampled.2.1.1.1
  have hprf : ∀ prf, (samplePython (Python.sampleToken sampleChild)).claims.prf = some prf →
      SameToken prf (sampleGo (Python.sampleToken sampleChild)).claims.parent
        (samplePython (Python.sampleToken sampleParent))
        (sampleNode (Python.sampleToken sampleParent)) (sampleGo (Python.sampleToken sampleParent)) := by
    intro prf hprf
    rw [hchild] at hprf
    rw [hgo, ← Option.some.inj hprf]
    exact hsame'
  have hclock : SameClock sampleNodeOptions sampleGoOptions 1005 1005 1005 1005 :=
    ⟨Int.floor_intCast 1005,
      by simpa [sampleNodeOptions] using (sampled.2.2.2.1 1005 (by simp)).1, Int.floor_intCast 1005⟩
  have haccepts : Accepts Python.sampleCheck samplePythonOptions 1005 1005
      (Python.sampleToken sampleChild) (samplePython (Python.sampleToken sampleChild))
      (samplePython (Python.sampleToken sampleParent))
      (sampleGo (Python.sampleToken sampleChild)).kid
      (sampleGo (Python.sampleToken sampleParent)).kid := by
    rw [hkid, hkid']
    exact accepts_sampleChild
  have hpython := (python_verify_iff sameOptions_sample hsame hprf hclock hclock).mpr ⟨rfl, haccepts⟩
  rcases verifiers_agree sameOptions_sample hsame hprf hclock hclock with hall | hnone
  · rw [hall.2.1, hall.2.2, hchild]
    exact ⟨rfl, rfl⟩
  · exact absurd hpython (hnone.1 _)

end SwarmAuth.Interop
