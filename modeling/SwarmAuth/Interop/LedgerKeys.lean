import SwarmAuth.Python.RedisLedger
import SwarmAuth.Js.Value

/-!
# Keys of the shared ledger

Both runtimes keep the record of a token or a budget under the SHA-256 of a JSON text that
names its kind and id: Python writes it with `json.dumps` and encodes it, Node writes it
with `JSON.stringify` and hashes the string. The runtimes have to address one record, and
no two records may share a key.

## Main definitions

* `RecordKind` — what a record is about.
* `pythonKey`, `nodeKey` — its key in Redis, as each runtime computes it.
* `ledgerKey_octets` — both hash the same octets.
* `ledgerKeys_agree` — the keys agree, and tell the records apart.
-/
namespace SwarmAuth.Interop

open Python.BudgetUsageTracker (ledgerKey lex_ledgerKey ledgerKey_inj)

/-- What a record of the ledger is about. -/
inductive RecordKind where
  | token | budget
  deriving DecidableEq

/-- The word for a kind. -/
def RecordKind.text : RecordKind → String
  | token => "token"
  | budget => "budget"

/-- `digest.hex()`. -/
def hexdigest (digest : Bytes) : List ℕ :=
  digest.flatMap fun b => [Json.hexDigit (b.toNat / 16), Json.hexDigit (b.toNat % 16)]

/-! ## Python -/

/-- `text.encode()`, which refuses surrogates. -/
def encode (text : List ℕ) : Option Bytes :=
  if text.all isScalarCode then some (utf8Encode text) else none

/-- The key of a record in `RedisBudgetUsageTracker`. -/
def pythonKey (sha256 : Bytes → Bytes) (kind : RecordKind) (id : Units)
    (keyPrefix : List ℕ := Json.codes "swarmauth:ledger:") : Option (List ℕ) := do
  let octets ← encode (ledgerKey kind.text id)
  return keyPrefix ++ hexdigest (sha256 octets)

/-! ## Node -/

/-- `JSON.stringify([kind, id])`. -/
def nodeText (kind : RecordKind) (id : Units) : Units :=
  ([91] ++ Js.stringifyString (lit kind.text) ++ [44] ++ Js.stringifyString id ++ [93]).map
    UInt16.ofNat

/-- The octets of a string that is hashed: UTF-8, with `U+FFFD` for unpaired surrogates. -/
def updateOctets (s : Units) : Bytes :=
  utf8Encode ((codePoints s).map fun c => if 0xD800 ≤ c ∧ c < 0xE000 then 0xFFFD else c)

/-- The key of a record in `RedisUsageTracker`. -/
def nodeKey (sha256 : Bytes → Bytes) (kind : RecordKind) (id : Units)
    (keyPrefix : List ℕ := Json.codes "swarmauth:ledger:") : List ℕ :=
  keyPrefix ++ hexdigest (sha256 (updateOctets (nodeText kind id)))

/-! ## The same octets -/

/-- A string of Unicode scalar values. -/
def IsText (s : Units) : Prop := ∀ c ∈ codePoints s, isScalarCode c = true

instance (s : Units) : Decidable (IsText s) :=
  inferInstanceAs (Decidable (∀ c ∈ codePoints s, isScalarCode c = true))

theorem quoteCode_ascii : ∀ c < 127,
    (Js.quoteCode c).map UInt16.ofNat = (Json.escapeCode c).flatMap unitsOf := by
  decide

theorem escapeCode_ascii : ∀ c < 127, ∀ d ∈ Json.escapeCode c, isScalarCode d = true := by
  decide

/-- What Node quotes are the units of what Python escapes. -/
theorem quoteCode_eq {c : ℕ} (hc : isScalarCode c = true) :
    (Js.quoteCode c).map UInt16.ofNat = (Json.escapeCode c).flatMap unitsOf := by
  by_cases hascii : c < 127
  · exact quoteCode_ascii c hascii
  · obtain ⟨-, hsurrogate⟩ := isScalarCode_iff.mp hc
    have hquote : Js.quoteCode c = (unitsOf c).map UInt16.toNat := by
      rw [Js.quoteCode, if_neg (by omega), if_neg (by omega), if_neg (by omega), if_neg (by omega),
        if_neg (by omega), if_neg (by omega), if_neg (by omega), if_neg (by omega)]
    have hunits : ∀ u ∈ unitsOf c, (UInt16.ofNat ∘ UInt16.toNat) u = id u :=
      fun u _ => UInt16.ofNat_toNat
    rw [hquote, Json.escapeCode, if_neg hascii, List.flatMap_singleton, List.map_map,
      List.map_congr_left hunits, List.map_id]

theorem stringifyString_eq {s : Units} (hs : IsText s) :
    (Js.stringifyString s).map UInt16.ofNat = (Json.rawText s).flatMap unitsOf := by
  have hcodes : (codePoints s).flatMap (fun c => (Js.quoteCode c).map UInt16.ofNat) =
      (codePoints s).flatMap fun c => (Json.escapeCode c).flatMap unitsOf :=
    List.flatMap_congr fun c hc => quoteCode_eq (hs c hc)
  rw [Js.stringifyString, Json.rawText, List.map_append, List.map_cons, List.map_flatMap, hcodes,
    List.flatMap_append, List.flatMap_cons, List.flatMap_assoc]
  rfl

theorem isText_kind (kind : RecordKind) : IsText (lit kind.text) := by
  cases kind <;> decide

/-- Node's text is Python's, in units. -/
theorem nodeText_eq (kind : RecordKind) {id : Units} (hid : IsText id) :
    nodeText kind id = (ledgerKey kind.text id).flatMap unitsOf := by
  rw [nodeText, ledgerKey]
  simp only [List.map_append, List.flatMap_append, stringifyString_eq hid,
    stringifyString_eq (isText_kind kind)]
  rfl

/-- Python's text has no surrogates. -/
theorem isScalarCode_of_mem {kind : RecordKind} {id : Units} (hid : IsText id) {c : ℕ}
    (hc : c ∈ ledgerKey kind.text id) : isScalarCode c = true := by
  have hraw : ∀ s, IsText s → ∀ c ∈ Json.rawText s, isScalarCode c = true := by
    intro s hs c hc
    rw [Json.rawText, List.mem_append, List.mem_cons, List.mem_flatMap, List.mem_singleton] at hc
    rcases hc with (rfl | ⟨d, hd, hc⟩) | rfl
    · decide
    · by_cases hascii : d < 127
      · exact escapeCode_ascii d hascii c hc
      · rw [Json.escapeCode, if_neg hascii, List.mem_singleton] at hc
        exact hc ▸ hs d hd
    · decide
  simp only [ledgerKey, List.mem_append, List.mem_singleton] at hc
  rcases hc with (((rfl | hc) | rfl) | hc) | rfl
  · decide
  · exact hraw _ (isText_kind kind) c hc
  · decide
  · exact hraw _ hid c hc
  · decide

/-- **Both runtimes hash the same octets.** -/
theorem ledgerKey_octets (kind : RecordKind) {id : Units} (hid : IsText id) :
    encode (ledgerKey kind.text id) = some (updateOctets (nodeText kind id)) := by
  have hscalar : ∀ c ∈ ledgerKey kind.text id, isScalarCode c = true :=
    fun c hc => isScalarCode_of_mem hid hc
  rw [encode, if_pos (List.all_eq_true.mpr hscalar), updateOctets, nodeText_eq kind hid,
    codePoints_flatMap_unitsOf hscalar, map_replacement hscalar]

/-! ## Distinct records -/

/-- The hash does not take two of the texts to one digest. -/
def CollisionFree (sha256 : Bytes → Bytes) (texts : List Bytes) : Prop :=
  ∀ a ∈ texts, ∀ b ∈ texts, sha256 a = sha256 b → a = b

theorem hexDigit_inj : ∀ m < 16, ∀ n < 16, Json.hexDigit m = Json.hexDigit n → m = n := by
  decide

/-- Hexadecimal digits tell digests apart. -/
theorem hexdigest_injective : Function.Injective hexdigest := by
  have hcode : PrefixCode (fun b : UInt8 =>
      [Json.hexDigit (b.toNat / 16), Json.hexDigit (b.toNat % 16)]) fun _ => True := by
    refine ⟨fun _ _ => List.cons_ne_nil _ _, fun a b _ _ s t h => ?_⟩
    have ha := a.toNat_lt
    have hb := b.toNat_lt
    simp only [List.cons_append, List.cons.injEq] at h
    have hhigh := hexDigit_inj _ (by omega) _ (by omega) h.1
    have hlow := hexDigit_inj _ (by omega) _ (by omega) h.2.1
    exact UInt8.toNat_inj.mp (by omega)
  intro a b h
  exact (hcode.flatMap_inj (fun _ _ => trivial) fun _ _ => trivial).mp h

theorem RecordKind.text_inj {kind kind' : RecordKind} (h : lit kind.text = lit kind'.text) :
    kind = kind' := by
  cases kind <;> cases kind' <;> first | rfl | exact absurd h (by decide)

/-- Python's keys are those of its ledger. -/
theorem pythonKey_eq {l : Python.RedisBudgetUsageTracker.Ledger} {sha256 : Bytes → Bytes}
    (hsha : ∀ text, l.sha256 text = hexdigest (sha256 (utf8Encode text)))
    {record : Python.BudgetUsageTracker.LedgerRecord} {kind : RecordKind} {id : Units}
    (hrecord : record.key = ledgerKey kind.text id) (hid : IsText id) :
    pythonKey sha256 kind id l.keyPrefix = some (l.key record) := by
  have hscalar : ∀ c ∈ ledgerKey kind.text id, isScalarCode c = true :=
    fun c hc => isScalarCode_of_mem hid hc
  rw [pythonKey, encode, if_pos (List.all_eq_true.mpr hscalar),
    Python.RedisBudgetUsageTracker.Ledger.key, hsha, hrecord]
  rfl

section Records
variable {kind kind' : RecordKind} {id id' : Units}

theorem ledgerKey_injective (h : ledgerKey kind.text id = ledgerKey kind'.text id') :
    kind = kind' ∧ id = id' := by
  obtain ⟨hkind, hid⟩ := ledgerKey_inj h
  exact ⟨RecordKind.text_inj hkind, hid⟩

/-- The octets tell the records apart. -/
theorem octets_injective_of_isText (hid : IsText id) (hid' : IsText id')
    (h : updateOctets (nodeText kind id) = updateOctets (nodeText kind' id')) :
    kind = kind' ∧ id = id' := by
  have hlt : ∀ (kind : RecordKind) {id : Units}, IsText id →
      ∀ c ∈ ledgerKey kind.text id, c < 0x110000 :=
    fun kind _ hid c hc => (isScalarCode_iff.mp (isScalarCode_of_mem hid hc)).1
  have hencode := (ledgerKey_octets kind hid).trans
    ((congrArg some h).trans (ledgerKey_octets kind' hid').symm)
  have hall : ∀ (kind : RecordKind) {id : Units}, IsText id →
      encode (ledgerKey kind.text id) = some (utf8Encode (ledgerKey kind.text id)) :=
    fun kind _ hid => if_pos (List.all_eq_true.mpr fun c hc => isScalarCode_of_mem hid hc)
  rw [hall kind hid, hall kind' hid', Option.some.injEq,
    utf8Encode_inj (hlt kind hid) (hlt kind' hid')] at hencode
  exact ledgerKey_injective hencode

/-- **One record, one key**: the runtimes hash the same octets, which name the record; and
but for collisions of the hash they address one record, and share none. -/
theorem ledgerKeys_agree (hid : IsText id) (hid' : IsText id') :
    encode (ledgerKey kind.text id) = some (updateOctets (nodeText kind id)) ∧
    (ledgerKey kind.text id = ledgerKey kind'.text id' → kind = kind' ∧ id = id') ∧
    (nodeText kind id = nodeText kind' id' → kind = kind' ∧ id = id') ∧
    ∀ keyPrefix sha256, pythonKey sha256 kind id keyPrefix = some (nodeKey sha256 kind id keyPrefix) ∧
      (CollisionFree sha256 [updateOctets (nodeText kind id), updateOctets (nodeText kind' id')] →
        nodeKey sha256 kind id keyPrefix = nodeKey sha256 kind' id' keyPrefix →
          kind = kind' ∧ id = id') := by
  refine ⟨ledgerKey_octets kind hid, ledgerKey_injective, fun h => ?_, fun keyPrefix sha256 =>
    ⟨?_, fun hfree h => ?_⟩⟩
  · exact octets_injective_of_isText hid hid' (congrArg updateOctets h)
  · rw [pythonKey, ledgerKey_octets kind hid]
    rfl
  · have hdigest := hexdigest_injective (List.append_cancel_left h)
    exact octets_injective_of_isText hid hid' (hfree _ (by simp) _ (by simp) hdigest)

end Records

/-- The digests of two sample texts. -/
def sampleSha256 (text : Bytes) : Bytes :=
  if text = updateOctets (nodeText .token (lit "a")) then
    [89, 219, 120, 131, 197, 176, 110, 121, 3, 156, 210, 62, 22, 247, 229, 101, 145, 134, 127, 217,
      11, 79, 79, 140, 176, 94, 44, 10, 235, 104, 211, 95]
  else
    [101, 98, 218, 233, 44, 2, 18, 216, 124, 10, 80, 117, 3, 12, 54, 236, 97, 161, 168, 142, 47,
      140, 8, 86, 34, 206, 39, 84, 179, 146, 253, 99]

theorem ledgerKeys_agree_sample :
    pythonKey sampleSha256 .token (lit "a") = some (nodeKey sampleSha256 .token (lit "a")) ∧
      nodeKey sampleSha256 .token (lit "a") ≠ nodeKey sampleSha256 .budget (lit "a") := by
  have hfree : CollisionFree sampleSha256
      [updateOctets (nodeText .token (lit "a")), updateOctets (nodeText .budget (lit "a"))] := by
    unfold CollisionFree
    decide
  have hid : IsText (lit "a") := by decide
  have hkeys : pythonKey sampleSha256 .token (lit "a") = some (nodeKey sampleSha256 .token (lit "a")) ∧
      (CollisionFree sampleSha256
        [updateOctets (nodeText .token (lit "a")), updateOctets (nodeText .budget (lit "a"))] →
      nodeKey sampleSha256 .token (lit "a") = nodeKey sampleSha256 .budget (lit "a") →
        RecordKind.token = .budget ∧ lit "a" = lit "a") :=
    (ledgerKeys_agree hid hid).2.2.2 (Json.codes "swarmauth:ledger:") sampleSha256
  exact ⟨hkeys.1, fun heq => absurd (hkeys.2 hfree heq).1 (by decide)⟩

end SwarmAuth.Interop
