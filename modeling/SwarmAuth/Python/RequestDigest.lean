import SwarmAuth.Lib.JsonPaths
import SwarmAuth.Python.Approvals

/-!
# What a request digest identifies

`request_digest` hashes the canonical text of a payload. The text is the same exactly for
payloads that are the same JSON value, part by part; so unless the hash collides, an edited
payload has another digest, and an approval authorizes no payload but its own.

## Main definitions

* `Payload` — what `request_digest` accepts.
* `Payload.encoded` — the text it hashes.
* `requestDigest_identifies` — texts, digests and authorizations tell payloads apart.
-/
namespace SwarmAuth.Python.Approvals

/-- A payload that `request_digest` accepts; the keys of a dict are distinct. -/
structure Payload where
  value : Value
  accepted : value.allScalars portable = true
  dictLike : value.keysNodup = true

/-- The text that is hashed. -/
def Payload.encoded (p : Payload) : Bytes := (dumps p.value).getD []

/-- Safe integers are short enough to be written. -/
theorem writable_of_portable (s : Scalar) (h : portable s = true) : writable s = true := by
  cases s with
  | int n =>
      have hsafe : n.natAbs ≤ 2 ^ 53 - 1 := by simpa [portable] using h
      have hlen : (natText n.natAbs).length ≤ 4300 :=
        (natText_length_le (by norm_num) (show n.natAbs < 10 ^ 17 by omega)).trans (by norm_num)
      simpa [writable] using hlen
  | float d => cases h
  | _ => rfl

theorem Payload.dumps_eq (p : Payload) : dumps p.value = some p.encoded := by
  have hw : p.value.allScalars writable = true :=
    Json.Tree.allScalars_mono writable_of_portable p.accepted
  rw [Payload.encoded, dumps, if_pos hw, Option.getD_some]

theorem Payload.requestDigest_eq (p : Payload) (sha256 : List ℕ → Units) :
    requestDigest sha256 p.value = .ok (sha256 (p.encoded.map UInt8.toNat)) := by
  rw [requestDigest, if_pos p.accepted, p.dumps_eq]

/-- Payloads are exactly what is accepted. -/
theorem requestDigest_accepts {sha256 : List ℕ → Units} {v : Value} :
    (∃ digest, requestDigest sha256 v = .ok digest) ↔ v.allScalars portable = true := by
  constructor
  · rintro ⟨digest, h⟩
    by_contra hv
    rw [requestDigest, if_neg hv] at h
    exact error_ne_ok h
  · intro hv
    have hw : v.allScalars writable = true := Json.Tree.allScalars_mono writable_of_portable hv
    rw [requestDigest, if_pos hv, dumps, if_pos hw]
    exact ⟨_, rfl⟩

/-- **Equal texts are equal values**: what is hashed can be loaded, and sorting is all that
is lost. -/
theorem Payload.encoded_eq_iff {p q : Payload} :
    p.encoded = q.encoded ↔ p.value.Same q.value := by
  rw [Json.Tree.same_iff_canon codePoints_injective p.dictLike q.dictLike]
  constructor
  · intro h
    have hp := loads_dumps p.dictLike p.dumps_eq
    have hq := loads_dumps q.dictLike q.dumps_eq
    rw [h, hq] at hp
    exact (Option.some.inj hp).symm
  · intro h
    have hwp := Json.Tree.allScalars_mono writable_of_portable p.accepted
    have hwq := Json.Tree.allScalars_mono writable_of_portable q.accepted
    rw [Payload.encoded, Payload.encoded, dumps, dumps, if_pos hwp, if_pos hwq, h]

/-- The hash does not take both texts to one digest. -/
def NoCollision (sha256 : List ℕ → Units) (p q : Payload) : Prop :=
  sha256 (p.encoded.map UInt8.toNat) = sha256 (q.encoded.map UInt8.toNat) → p.encoded = q.encoded

theorem requestDigest_eq_iff {sha256 : List ℕ → Units} {p q : Payload}
    (hsha : NoCollision sha256 p q) :
    requestDigest sha256 p.value = requestDigest sha256 q.value ↔ p.value.Same q.value := by
  rw [p.requestDigest_eq, q.requestDigest_eq, Except.ok.injEq, ← Payload.encoded_eq_iff]
  constructor
  · exact hsha
  · intro h
    rw [h]

theorem ApproveCall.requestDigest_of_approval {sha256 : List ℕ → Units} {r : ApproveCall} {now : ℚ}
    {a : Approval} (h : r.approval sha256 now = .ok a) :
    requestDigest sha256 r.payload = .ok a.requestDigest := by
  rw [ApproveCall.approval, raiseIf_bind_eq_ok, raiseIf_bind_eq_ok] at h
  obtain ⟨digest, hdigest, ha⟩ := bind_eq_ok.mp h.2.2
  rw [pure_eq_ok] at ha
  rw [hdigest, ← ha]

/-- An approval authorizes no payload but its own. -/
theorem ApproveCall.same_of_verify {σ : Type} {ed : SignatureCheck} {sha256 : List ℕ → Units}
    {p q : Payload} (hsha : NoCollision sha256 p q) {r : ApproveCall} {now : ℚ} {a : Approval}
    (hr : r.payload = p.value) (ha : r.approval sha256 now = .ok a) {c : AuthorizeCall σ}
    (hc : c.payload = q.value) {s s' : σ} {claims : CapabilityClaims}
    (hverify : c.verify ed sha256 a s = (.ok claims, s')) : p.value.Same q.value := by
  have hmatches := (AuthorizeCall.matches_of_verify hverify).2.2.2
  have hdigest := ApproveCall.requestDigest_of_approval ha
  rw [hc] at hmatches
  rw [hr] at hdigest
  exact (requestDigest_eq_iff hsha).mp (hdigest.trans hmatches.symm)

/-- **A digest identifies its payload**: the hashed texts are equal exactly for the same JSON
value; and but for collisions of the hash so are the digests, and an approval authorizes no
edited payload. -/
theorem requestDigest_identifies (p q : Payload) :
    (p.encoded = q.encoded ↔ p.value.Same q.value) ∧
    ∀ sha256, NoCollision sha256 p q →
      (requestDigest sha256 p.value = requestDigest sha256 q.value ↔ p.value.Same q.value) ∧
      ∀ {σ : Type} (ed : SignatureCheck) (r : ApproveCall) (now : ℚ) (a : Approval)
        (c : AuthorizeCall σ) (s s' : σ) (claims : CapabilityClaims),
        r.payload = p.value → r.approval sha256 now = .ok a → c.payload = q.value →
          c.verify ed sha256 a s = (.ok claims, s') → p.value.Same q.value :=
  ⟨Payload.encoded_eq_iff, fun _ hsha => ⟨requestDigest_eq_iff hsha,
    fun _ _ _ _ _ _ _ _ hr ha hc hverify => ApproveCall.same_of_verify hsha hr ha hc hverify⟩⟩

/-- An object with the one member `a`. -/
def samplePayload (w : Scalar) (h : portable w = true) : Payload :=
  ⟨.obj [("a", .scalar w)], by simpa using h, rfl⟩

/-- The digests of two sample texts. -/
def sampleSha256 (text : List ℕ) : Units :=
  if text = Json.codes "\x7b\"a\":true\x7d" then
    lit "5daa0644c4a1c43ea018f7f1ef2944b90e0165ef1f2d5669ca89e5d4f69ac597"
  else lit "015abd7f5cc57a2dd94b7590f04ad8084273905ee33ec5cebeae62276a97f862"

/-- `true` is not `1`. -/
theorem requestDigest_identifies_sample :
    requestDigest sampleSha256 (samplePayload (.bool true) rfl).value ≠
      requestDigest sampleSha256 (samplePayload (.int 1) rfl).value := by
  have hsha : NoCollision sampleSha256 (samplePayload (.bool true) rfl)
      (samplePayload (.int 1) rfl) := by
    unfold NoCollision
    decide +kernel
  have h := (requestDigest_identifies (samplePayload (.bool true) rfl)
    (samplePayload (.int 1) rfl)).2 sampleSha256 hsha
  intro heq
  have hsame := h.1.mp heq [.key (lit "a")]
  exact absurd hsame (by simp [samplePayload, Json.Tree.look, Json.Tree.part, Json.Tree.head])

end SwarmAuth.Python.Approvals
