import SwarmAuth.Lib.Unicode
import Mathlib.Tactic

/-!
# Unpadded base64url

Octets as characters of the URL-safe alphabet, three octets to four characters, without
padding. `decode` reads a text of alphabet characters the way lenient decoders do, the
bits left over at the end dropped; a text is canonical when encoding what it decodes to
gives it back.

## Main definitions

* `encode`, `decode` — both directions, over character codes.
* `decode_encode` — what is encoded is decoded.
-/
namespace SwarmAuth.Base64Url

/-- The character of a six-bit group. -/
def sextetChar (n : ℕ) : ℕ :=
  if n < 26 then 65 + n
  else if n < 52 then 71 + n
  else if n < 62 then n - 4
  else if n = 62 then 45 else 95

/-- The six-bit group of a character. -/
def charSextet (c : ℕ) : Option ℕ :=
  if 65 ≤ c ∧ c ≤ 90 then some (c - 65)
  else if 97 ≤ c ∧ c ≤ 122 then some (c - 71)
  else if 48 ≤ c ∧ c ≤ 57 then some (c + 4)
  else if c = 45 then some 62
  else if c = 95 then some 63
  else none

/-- The six-bit groups of octets. -/
def toSextets : Bytes → List ℕ
  | a :: b :: c :: bs =>
      a.toNat / 4 :: (a.toNat % 4 * 16 + b.toNat / 16) :: (b.toNat % 16 * 4 + c.toNat / 64) ::
        c.toNat % 64 :: toSextets bs
  | [a, b] => [a.toNat / 4, a.toNat % 4 * 16 + b.toNat / 16, b.toNat % 16 * 4]
  | [a] => [a.toNat / 4, a.toNat % 4 * 16]
  | [] => []

/-- The octets of six-bit groups; bits that fill no octet are dropped. -/
def ofSextets : List ℕ → Bytes
  | w :: x :: y :: z :: ss =>
      UInt8.ofNat (w * 4 + x / 16) :: UInt8.ofNat (x % 16 * 16 + y / 4) ::
        UInt8.ofNat (y % 4 * 64 + z) :: ofSextets ss
  | [w, x, y] => [UInt8.ofNat (w * 4 + x / 16), UInt8.ofNat (x % 16 * 16 + y / 4)]
  | [w, x] => [UInt8.ofNat (w * 4 + x / 16)]
  | _ => []

/-- The text of octets. -/
def encode (bs : Bytes) : List ℕ := (toSextets bs).map sextetChar

/-- The octets of a text of alphabet characters. -/
def decode (cs : List ℕ) : Option Bytes := (cs.mapM charSextet).map ofSextets

theorem charSextet_sextetChar : ∀ n < 64, charSextet (sextetChar n) = some n := by decide

theorem toSextets_lt (bs : Bytes) : ∀ n ∈ toSextets bs, n < 64 := by
  induction bs using toSextets.induct with
  | case1 a b c bs ih =>
      have ha := UInt8.toNat_lt a
      have hb := UInt8.toNat_lt b
      have hc := UInt8.toNat_lt c
      intro n hn
      simp only [toSextets, List.mem_cons] at hn
      rcases hn with rfl | rfl | rfl | rfl | hn
      · omega
      · omega
      · omega
      · omega
      · exact ih n hn
  | case2 a b =>
      have ha := UInt8.toNat_lt a
      have hb := UInt8.toNat_lt b
      simp only [toSextets, List.mem_cons, List.not_mem_nil, or_false, forall_eq_or_imp, forall_eq]
      omega
  | case3 a =>
      have ha := UInt8.toNat_lt a
      simp only [toSextets, List.mem_cons, List.not_mem_nil, or_false, forall_eq_or_imp, forall_eq]
      omega
  | case4 => simp [toSextets]

theorem ofNat_eq {u : UInt8} {n : ℕ} (h : n = u.toNat) : UInt8.ofNat n = u := by
  rw [h, UInt8.ofNat_toNat]

theorem ofSextets_toSextets (bs : Bytes) : ofSextets (toSextets bs) = bs := by
  induction bs using toSextets.induct with
  | case1 a b c bs ih =>
      have ha := UInt8.toNat_lt a
      have hb := UInt8.toNat_lt b
      have hc := UInt8.toNat_lt c
      rw [toSextets, ofSextets, ih, ofNat_eq (u := a) (by omega), ofNat_eq (u := b) (by omega),
        ofNat_eq (u := c) (by omega)]
  | case2 a b =>
      have ha := UInt8.toNat_lt a
      have hb := UInt8.toNat_lt b
      rw [toSextets, ofSextets, ofNat_eq (u := a) (by omega), ofNat_eq (u := b) (by omega)]
  | case3 a =>
      have ha := UInt8.toNat_lt a
      rw [toSextets, ofSextets, ofNat_eq (u := a) (by omega)]
  | case4 => rfl

theorem mapM_charSextet {ss : List ℕ} (h : ∀ n ∈ ss, n < 64) :
    (ss.map sextetChar).mapM charSextet = some ss := by
  induction ss with
  | nil => rfl
  | cons n ss ih =>
      rw [List.map_cons, List.mapM_cons, charSextet_sextetChar n (h n List.mem_cons_self),
        ih fun m hm => h m (List.mem_cons_of_mem n hm)]
      rfl

/-- **What is encoded is decoded.** -/
theorem decode_encode (bs : Bytes) : decode (encode bs) = some bs := by
  rw [decode, encode, mapM_charSextet (toSextets_lt bs), Option.map_some, ofSextets_toSextets]

/-- No text is one character past a whole number of groups. -/
theorem length_encode_mod (bs : Bytes) : (encode bs).length % 4 ≠ 1 := by
  rw [encode, List.length_map]
  induction bs using toSextets.induct with
  | case1 a b c bs ih => simp only [toSextets, List.length_cons]; omega
  | case2 a b => simp [toSextets]
  | case3 a => simp [toSextets]
  | case4 => simp [toSextets]

/-- Every character of a text is in the alphabet. -/
theorem charSextet_of_mem_encode {bs : Bytes} {c : ℕ} (h : c ∈ encode bs) :
    ∃ n, charSextet c = some n := by
  obtain ⟨n, hn, rfl⟩ := List.mem_map.mp h
  exact ⟨n, charSextet_sextetChar n (toSextets_lt bs n hn)⟩

/-- Alphabet characters are ASCII and none is a full stop. -/
theorem charSextet_ascii {c n : ℕ} (h : charSextet c = some n) : c < 128 ∧ c ≠ 46 := by
  simp only [charSextet] at h
  split_ifs at h <;> omega

end SwarmAuth.Base64Url
