import SwarmAuth.Lib.PrefixCode
import Mathlib.Data.List.Basic
import Mathlib.Data.UInt
import Mathlib.Tactic.Common

/-!
# Unicode encodings

Strings are UTF-16 code units, unpaired surrogates included, as JSON escapes can spell
them; decoders deliver code points. The UTF-8 reader is a machine over octets that
owes continuation octets within bounds; it admits encoded surrogates or refuses them.

## Main definitions

* `unitsOf`, `codePoints` — one code point as units, units as code points.
* `utf8Decode`, `utf16Units`, `utf32Codes` — from octets.
* `utf8Encode`, `octets` — to octets.
* `flatMap_unitsOf_codePoints`, `utf8Decode_ascii`, `utf8Decode_encode` — read back.
* `utf8_prefixCode`, `utf16_prefixCode` — both encodings are prefix codes.
-/
namespace SwarmAuth

/-- A string as UTF-16 code units. -/
abbrev Units := List UInt16

/-- A string of octets. -/
abbrev Bytes := List UInt8

instance : LawfulBEq Units := inferInstance

instance : LawfulBEq Bytes := inferInstance

/-- The units of an ASCII literal. -/
def lit (s : String) : Units := s.toList.map fun c => UInt16.ofNat c.toNat

instance : Coe String Units := ⟨lit⟩

/-! ## UTF-16 -/

/-- The units of a code; one above the basic plane is a surrogate pair. -/
def unitsOf (c : ℕ) : Units :=
  if c < 0x10000 then [UInt16.ofNat c]
  else [UInt16.ofNat (0xD800 + (c - 0x10000) / 0x400), UInt16.ofNat (0xDC00 + (c - 0x10000) % 0x400)]

/-- The first half of a surrogate pair. -/
def isHigh (u : UInt16) : Bool := 0xD800 ≤ u.toNat && u.toNat < 0xDC00

/-- The second half of a surrogate pair. -/
def isLow (u : UInt16) : Bool := 0xDC00 ≤ u.toNat && u.toNat < 0xE000

/-- The code points of a string, unpaired surrogates standing for themselves. -/
def codePoints : Units → List ℕ
  | [] => []
  | [u] => [u.toNat]
  | u :: v :: s =>
      if isHigh u && isLow v then
        (0x10000 + (u.toNat - 0xD800) * 0x400 + (v.toNat - 0xDC00)) :: codePoints s
      else u.toNat :: codePoints (v :: s)

theorem unitsOf_unit (u : UInt16) : unitsOf u.toNat = [u] := by
  rw [unitsOf, if_pos (UInt16.toNat_lt u), UInt16.ofNat_toNat]

theorem unitsOf_pair {u v : UInt16} (hu : isHigh u = true) (hv : isLow v = true) :
    unitsOf (0x10000 + (u.toNat - 0xD800) * 0x400 + (v.toNat - 0xDC00)) = [u, v] := by
  simp only [isHigh, isLow, Bool.and_eq_true, decide_eq_true_eq] at hu hv
  rw [unitsOf, if_neg (by omega)]
  have hhigh : 0xD800 + (0x10000 + (u.toNat - 0xD800) * 0x400 + (v.toNat - 0xDC00) - 0x10000) / 0x400 =
      u.toNat := by omega
  have hlow : 0xDC00 + (0x10000 + (u.toNat - 0xD800) * 0x400 + (v.toNat - 0xDC00) - 0x10000) % 0x400 =
      v.toNat := by omega
  rw [hhigh, hlow, UInt16.ofNat_toNat, UInt16.ofNat_toNat]

/-- **A string is the units of its code points.** -/
theorem flatMap_unitsOf_codePoints (s : Units) : (codePoints s).flatMap unitsOf = s := by
  induction s using codePoints.induct with
  | case1 => rfl
  | case2 u => rw [codePoints, List.flatMap_cons, unitsOf_unit]; rfl
  | case3 u v s h ih =>
      rw [Bool.and_eq_true] at h
      rw [codePoints, if_pos (by simp [h]), List.flatMap_cons, unitsOf_pair h.1 h.2, ih]
      rfl
  | case4 u v s h ih =>
      rw [codePoints, if_neg h, List.flatMap_cons, unitsOf_unit, ih]
      rfl

/-- Code points lie in the seventeen planes. -/
theorem codePoints_lt (s : Units) : ∀ c ∈ codePoints s, c < 0x110000 := by
  have hunit : ∀ u : UInt16, u.toNat < 0x110000 := fun u =>
    u.toNat_lt.trans (by decide)
  induction s using codePoints.induct with
  | case1 => simp [codePoints]
  | case2 u =>
      intro c hc
      rw [codePoints, List.mem_singleton] at hc
      rw [hc]
      exact hunit u
  | case3 u v s h ih =>
      intro c hc
      rw [codePoints, if_pos h] at hc
      simp only [isHigh, isLow, Bool.and_eq_true, decide_eq_true_eq] at h
      rcases List.mem_cons.mp hc with heq | hmem
      · omega
      · exact ih c hmem
  | case4 u v s h ih =>
      intro c hc
      rw [codePoints, if_neg h] at hc
      rcases List.mem_cons.mp hc with heq | hmem
      · rw [heq]
        exact hunit u
      · exact ih c hmem

/-- Strings are told apart by their code points. -/
theorem codePoints_injective : Function.Injective codePoints := fun s t h => by
  rw [← flatMap_unitsOf_codePoints s, h, flatMap_unitsOf_codePoints]

/-! ## UTF-8 -/

/-- The code points read, latest first, and the continuation octets owed: how many, the
bits so far, and the bounds of the next one. -/
structure Utf8State where
  read : List ℕ
  owed : ℕ
  bits : ℕ
  low : ℕ
  high : ℕ

/-- One octet; `surrogates` admits the encodings of surrogates. -/
def utf8Step (surrogates : Bool) (st : Utf8State) (b : UInt8) : Option Utf8State :=
  let b := b.toNat
  if st.owed = 0 then
    if b ≤ 0x7F then some { st with read := b :: st.read }
    else if 0xC2 ≤ b ∧ b ≤ 0xDF then some ⟨st.read, 1, b - 0xC0, 0x80, 0xBF⟩
    else if b = 0xE0 then some ⟨st.read, 2, 0, 0xA0, 0xBF⟩
    else if b = 0xED ∧ surrogates = false then some ⟨st.read, 2, 0xD, 0x80, 0x9F⟩
    else if 0xE1 ≤ b ∧ b ≤ 0xEF then some ⟨st.read, 2, b - 0xE0, 0x80, 0xBF⟩
    else if b = 0xF0 then some ⟨st.read, 3, 0, 0x90, 0xBF⟩
    else if 0xF1 ≤ b ∧ b ≤ 0xF3 then some ⟨st.read, 3, b - 0xF0, 0x80, 0xBF⟩
    else if b = 0xF4 then some ⟨st.read, 3, 4, 0x80, 0x8F⟩
    else none
  else if st.low ≤ b ∧ b ≤ st.high then
    let bits := 64 * st.bits + (b - 0x80)
    if st.owed = 1 then some ⟨bits :: st.read, 0, 0, 0, 0⟩
    else some ⟨st.read, st.owed - 1, bits, 0x80, 0xBF⟩
  else none

/-- The code points of a UTF-8 text. -/
def utf8Decode (surrogates : Bool) (bs : Bytes) : Option (List ℕ) :=
  match bs.foldlM (utf8Step surrogates) ⟨[], 0, 0, 0, 0⟩ with
  | some st => if st.owed = 0 then some st.read.reverse else none
  | none => none

/-- ASCII codes as octets. -/
def asciiBytes (cs : List ℕ) : Bytes := cs.map UInt8.ofNat

/-- **ASCII octets are their own code points.** -/
theorem utf8Decode_ascii (surrogates : Bool) {cs : List ℕ} (h : ∀ c ∈ cs, c < 128) :
    utf8Decode surrogates (asciiBytes cs) = some cs := by
  have hrun : ∀ read, (asciiBytes cs).foldlM (utf8Step surrogates) ⟨read, 0, 0, 0, 0⟩ =
      some ⟨cs.reverse ++ read, 0, 0, 0, 0⟩ := by
    induction cs with
    | nil => intro read; rfl
    | cons c cs ih =>
        intro read
        have hc := h c List.mem_cons_self
        have hoct : (UInt8.ofNat c).toNat = c := by simp; omega
        have hstep : utf8Step surrogates ⟨read, 0, 0, 0, 0⟩ (UInt8.ofNat c) =
            some ⟨c :: read, 0, 0, 0, 0⟩ := by
          simp only [utf8Step, if_true, hoct]
          rw [if_pos (by omega)]
        have hrest := ih (fun d hd => h d (List.mem_cons_of_mem c hd)) (c :: read)
        simp only [asciiBytes, List.map_cons, List.foldlM_cons, hstep, Option.bind_eq_bind,
          Option.bind_some, List.reverse_cons, List.append_assoc, List.singleton_append] at hrest ⊢
        exact hrest
  rw [utf8Decode, hrun []]
  simp

/-! ## Writing UTF-8 -/

/-- The octets of a code point. -/
def utf8Octets (c : ℕ) : Bytes :=
  if c < 0x80 then [UInt8.ofNat c]
  else if c < 0x800 then [UInt8.ofNat (0xC0 + c / 64), UInt8.ofNat (0x80 + c % 64)]
  else if c < 0x10000 then
    [UInt8.ofNat (0xE0 + c / 4096), UInt8.ofNat (0x80 + c / 64 % 64), UInt8.ofNat (0x80 + c % 64)]
  else
    [UInt8.ofNat (0xF0 + c / 262144), UInt8.ofNat (0x80 + c / 4096 % 64),
      UInt8.ofNat (0x80 + c / 64 % 64), UInt8.ofNat (0x80 + c % 64)]

/-- The UTF-8 text of code points. -/
def utf8Encode (cs : List ℕ) : Bytes := cs.flatMap utf8Octets

theorem ofNat_eq_iff {m n : ℕ} : UInt8.ofNat m = UInt8.ofNat n ↔ m % 256 = n % 256 := by
  rw [← UInt8.toNat_inj]
  simp

/-- The first octet tells a code point's length, and the octets tell the code point. -/
theorem utf8Octets_append_inj {c d : ℕ} (hc : c < 0x110000) (hd : d < 0x110000) {s t : Bytes}
    (h : utf8Octets c ++ s = utf8Octets d ++ t) : c = d ∧ s = t := by
  have hcd : c = d := by
    simp only [utf8Octets] at h
    split_ifs at h <;>
      simp only [List.cons_append, List.nil_append, List.cons.injEq, ofNat_eq_iff] at h <;> omega
  subst hcd
  exact ⟨rfl, List.append_cancel_left h⟩

/-- **UTF-8 is a prefix code.** -/
theorem utf8_prefixCode : PrefixCode utf8Octets fun c => c < 0x110000 where
  ne_nil c _ := by
    rw [utf8Octets]
    split_ifs <;> simp
  head _ _ hc hd _ _ h := (utf8Octets_append_inj hc hd h).1

theorem utf8Encode_inj {a b : List ℕ} (ha : ∀ c ∈ a, c < 0x110000) (hb : ∀ c ∈ b, c < 0x110000) :
    utf8Encode a = utf8Encode b ↔ a = b := utf8_prefixCode.flatMap_inj ha hb

/-- Below `0x80` an octet stands for itself, and only there. -/
theorem utf8_mark {c : ℕ} (hc : c < 0x80) :
    Mark utf8Octets (fun c => c < 0x110000) c (UInt8.ofNat c) where
  code := by rw [utf8Octets, if_pos hc]
  only d hd h := by
    rw [utf8Octets] at h
    split_ifs at h <;> simp only [List.mem_cons, List.not_mem_nil, or_false, ofNat_eq_iff] at h <;>
      omega

/-- A code point that is not a surrogate. -/
def isScalarCode (c : ℕ) : Bool := c < 0x110000 ∧ ¬ (0xD800 ≤ c ∧ c < 0xE000)

theorem isScalarCode_iff {c : ℕ} :
    isScalarCode c = true ↔ c < 0x110000 ∧ ¬ (0xD800 ≤ c ∧ c < 0xE000) := by
  rw [isScalarCode, decide_eq_true_iff]

/-- Where there are no surrogates, none are replaced. -/
theorem map_replacement {cs : List ℕ} (h : ∀ c ∈ cs, isScalarCode c = true) :
    cs.map (fun c => if 0xD800 ≤ c ∧ c < 0xE000 then 0xFFFD else c) = cs := by
  rw [List.map_congr_left (g := fun c => c) fun c hc => ?_, List.map_id']
  rw [if_neg (isScalarCode_iff.mp (h c hc)).2]

/-- A continuation octet in its range is taken. -/
theorem utf8Step_owed (surrogates : Bool) {st : Utf8State} {b : ℕ} (howed : st.owed ≠ 0)
    (hlow : st.low ≤ b) (hhigh : b ≤ st.high) (hb : b < 256) :
    utf8Step surrogates st (UInt8.ofNat b) =
      if st.owed = 1 then some ⟨(64 * st.bits + (b - 0x80)) :: st.read, 0, 0, 0, 0⟩
      else some ⟨st.read, st.owed - 1, 64 * st.bits + (b - 0x80), 0x80, 0xBF⟩ := by
  have hoct : (UInt8.ofNat b).toNat = b := by
    rw [UInt8.toNat_ofNat']
    omega
  simp only [utf8Step, hoct]
  rw [if_neg howed, if_pos ⟨hlow, hhigh⟩]

/-- The octets of a code point are read as it. -/
theorem utf8Run_octets (surrogates : Bool) (read : List ℕ) {c : ℕ} (hc : isScalarCode c = true) :
    (utf8Octets c).foldlM (utf8Step surrogates) ⟨read, 0, 0, 0, 0⟩ = some ⟨c :: read, 0, 0, 0, 0⟩ := by
  obtain ⟨hlt, hsur⟩ := isScalarCode_iff.mp hc
  have hoct : ∀ b < 256, (UInt8.ofNat b).toNat = b := by
    intro b hb
    rw [UInt8.toNat_ofNat']
    omega
  have hlast : ∀ low high bits b, low ≤ b → b ≤ high → b < 256 → 64 * bits + (b - 0x80) = c →
      utf8Step surrogates ⟨read, 1, bits, low, high⟩ (UInt8.ofNat b) =
        some ⟨c :: read, 0, 0, 0, 0⟩ := by
    intro low high bits b hl hh hb heq
    rw [utf8Step_owed surrogates one_ne_zero hl hh hb, if_pos rfl, heq]
  have hmid : ∀ owed low high bits b bits', low ≤ b → b ≤ high → b < 256 →
      64 * bits + (b - 0x80) = bits' →
      utf8Step surrogates ⟨read, owed + 2, bits, low, high⟩ (UInt8.ofNat b) =
        some ⟨read, owed + 1, bits', 0x80, 0xBF⟩ := by
    intro owed low high bits b bits' hl hh hb heq
    rw [utf8Step_owed surrogates (by simp) hl hh hb, if_neg (by simp), heq]
    rfl
  simp only [utf8Octets]
  split_ifs with h1 h2 h3
  · simp only [List.foldlM_cons, List.foldlM_nil, utf8Step, if_true, hoct c (by omega)]
    rw [if_pos (by omega)]
    rfl
  · have hfirst : utf8Step surrogates ⟨read, 0, 0, 0, 0⟩ (UInt8.ofNat (0xC0 + c / 64)) =
        some ⟨read, 1, c / 64, 0x80, 0xBF⟩ := by
      simp only [utf8Step, if_true, hoct (0xC0 + c / 64) (by omega)]
      rw [if_neg (by omega), if_pos (by omega), Nat.add_sub_cancel_left]
    simp only [List.foldlM_cons, List.foldlM_nil, hfirst, Option.bind_eq_bind, Option.bind_some]
    rw [hlast _ _ _ _ (by omega) (by omega) (by omega) (by omega)]
    rfl
  · have hfirst : ∃ low high, utf8Step surrogates ⟨read, 0, 0, 0, 0⟩ (UInt8.ofNat (0xE0 + c / 4096)) =
        some ⟨read, 2, c / 4096, low, high⟩ ∧ low ≤ 0x80 + c / 64 % 64 ∧
          0x80 + c / 64 % 64 ≤ high := by
      simp only [utf8Step, if_true, hoct (0xE0 + c / 4096) (by omega)]
      rw [if_neg (by omega), if_neg (by omega)]
      split_ifs with hE0 hED hE1
      · exact ⟨_, _, by rw [show c / 4096 = 0 by omega], by omega, by omega⟩
      · exact ⟨_, _, by rw [show c / 4096 = 0xD by omega], by omega, by omega⟩
      · exact ⟨_, _, by rw [Nat.add_sub_cancel_left], by omega, by omega⟩
      all_goals omega
    obtain ⟨low, high, hfirst, hl, hh⟩ := hfirst
    simp only [List.foldlM_cons, List.foldlM_nil, hfirst, Option.bind_eq_bind, Option.bind_some]
    rw [hmid 0 _ _ _ _ (c / 64) hl hh (by omega) (by omega), Option.bind_some,
      hlast _ _ _ _ (by omega) (by omega) (by omega) (by omega)]
    rfl
  · have hfirst : ∃ low high, utf8Step surrogates ⟨read, 0, 0, 0, 0⟩
          (UInt8.ofNat (0xF0 + c / 262144)) = some ⟨read, 3, c / 262144, low, high⟩ ∧
        low ≤ 0x80 + c / 4096 % 64 ∧ 0x80 + c / 4096 % 64 ≤ high := by
      simp only [utf8Step, if_true, hoct (0xF0 + c / 262144) (by omega)]
      rw [if_neg (by omega), if_neg (by omega), if_neg (by omega), if_neg (by omega),
        if_neg (by omega)]
      split_ifs with hF0 hF1 hF4
      · exact ⟨_, _, by rw [show c / 262144 = 0 by omega], by omega, by omega⟩
      · exact ⟨_, _, by rw [Nat.add_sub_cancel_left], by omega, by omega⟩
      · exact ⟨_, _, by rw [show c / 262144 = 4 by omega], by omega, by omega⟩
      all_goals omega
    obtain ⟨low, high, hfirst, hl, hh⟩ := hfirst
    simp only [List.foldlM_cons, List.foldlM_nil, hfirst, Option.bind_eq_bind, Option.bind_some]
    rw [hmid 1 _ _ _ _ (c / 4096) hl hh (by omega) (by omega), Option.bind_some,
      hmid 0 _ _ _ _ (c / 64) (by omega) (by omega) (by omega) (by omega), Option.bind_some,
      hlast _ _ _ _ (by omega) (by omega) (by omega) (by omega)]
    rfl

/-- **UTF-8 reads back.** -/
theorem utf8Decode_encode (surrogates : Bool) {cs : List ℕ} (h : ∀ c ∈ cs, isScalarCode c = true) :
    utf8Decode surrogates (utf8Encode cs) = some cs := by
  have hrun : ∀ read, (utf8Encode cs).foldlM (utf8Step surrogates) ⟨read, 0, 0, 0, 0⟩ =
      some ⟨cs.reverse ++ read, 0, 0, 0, 0⟩ := by
    induction cs with
    | nil => intro read; rfl
    | cons c cs ih =>
        intro read
        have hrest := ih (fun d hd => h d (List.mem_cons_of_mem c hd)) (c :: read)
        rw [utf8Encode, List.flatMap_cons, List.foldlM_append,
          utf8Run_octets surrogates read (h c List.mem_cons_self)]
        simpa [utf8Encode] using hrest
  rw [utf8Decode, hrun []]
  simp

/-! ## The UTF-8 text of a string -/

/-- The UTF-8 text of a string; an unpaired surrogate is encoded as it stands. -/
def octets (s : Units) : Bytes := utf8Encode (codePoints s)

theorem octets_injective : Function.Injective octets := fun s t h =>
  codePoints_injective ((utf8Encode_inj (codePoints_lt s) (codePoints_lt t)).mp h)

/-- Without surrogates UTF-16 is a prefix code. -/
theorem utf16_prefixCode : PrefixCode unitsOf fun c => isScalarCode c = true where
  ne_nil c _ := by
    rw [unitsOf]
    split_ifs <;> simp
  head c d hc hd s t h := by
    obtain ⟨hc, hcs⟩ := isScalarCode_iff.mp hc
    obtain ⟨hd, hds⟩ := isScalarCode_iff.mp hd
    simp only [unitsOf] at h
    split_ifs at h <;>
      simp only [List.cons_append, List.nil_append, List.cons.injEq, ← UInt16.toNat_inj,
        UInt16.toNat_ofNat'] at h <;> omega

/-- **Code points without surrogates are those of their units.** -/
theorem codePoints_flatMap_unitsOf {cs : List ℕ} (h : ∀ c ∈ cs, isScalarCode c = true) :
    codePoints (cs.flatMap unitsOf) = cs := by
  induction cs with
  | nil => rfl
  | cons c cs ih =>
      obtain ⟨hc, hsur⟩ := isScalarCode_iff.mp (h c List.mem_cons_self)
      have hrest := ih fun d hd => h d (List.mem_cons_of_mem c hd)
      rw [List.flatMap_cons, unitsOf]
      split_ifs with hplane
      · have hunit : (UInt16.ofNat c).toNat = c := by
          rw [UInt16.toNat_ofNat']
          omega
        have hhigh : isHigh (UInt16.ofNat c) = false := by
          rw [isHigh, hunit, Bool.and_eq_false_iff, decide_eq_false_iff_not, decide_eq_false_iff_not]
          omega
        rw [List.cons_append, List.nil_append]
        cases htail : cs.flatMap unitsOf with
        | nil => rw [codePoints, hunit, ← hrest, htail, codePoints]
        | cons v s => rw [codePoints, hhigh, Bool.false_and, if_neg Bool.false_ne_true, hunit,
            ← htail, hrest]
      · have hu : (UInt16.ofNat (0xD800 + (c - 0x10000) / 0x400)).toNat =
            0xD800 + (c - 0x10000) / 0x400 := by
          rw [UInt16.toNat_ofNat']
          omega
        have hv : (UInt16.ofNat (0xDC00 + (c - 0x10000) % 0x400)).toNat =
            0xDC00 + (c - 0x10000) % 0x400 := by
          rw [UInt16.toNat_ofNat']
          omega
        have hpair : (isHigh (UInt16.ofNat (0xD800 + (c - 0x10000) / 0x400)) &&
            isLow (UInt16.ofNat (0xDC00 + (c - 0x10000) % 0x400))) = true := by
          rw [isHigh, isLow, hu, hv]
          simp only [Bool.and_eq_true, decide_eq_true_eq]
          omega
        have hcode : 0x10000 + (0xD800 + (c - 0x10000) / 0x400 - 0xD800) * 0x400 +
            (0xDC00 + (c - 0x10000) % 0x400 - 0xDC00) = c := by omega
        rw [List.cons_append, List.cons_append, List.nil_append, codePoints, if_pos hpair, hu, hv,
          hrest, hcode]

/-- In ASCII a unit stands for itself, and only there. -/
theorem utf16_mark {c : ℕ} (hc : c < 0x80) :
    Mark unitsOf (fun c => isScalarCode c = true) c (UInt16.ofNat c) where
  code := by rw [unitsOf, if_pos (by omega)]
  only d hd h := by
    obtain ⟨hd, hds⟩ := isScalarCode_iff.mp hd
    rw [unitsOf] at h
    split_ifs at h <;> simp only [List.mem_cons, List.not_mem_nil, or_false, ← UInt16.toNat_inj,
      UInt16.toNat_ofNat'] at h <;> omega

/-! ## UTF-16 and UTF-32 octets -/

/-- Octets in pairs, most significant first when `big`. -/
def utf16Units (big : Bool) : Bytes → Option Units
  | [] => some []
  | [_] => none
  | a :: b :: bs =>
      let u := if big then 256 * a.toNat + b.toNat else 256 * b.toNat + a.toNat
      (utf16Units big bs).map (UInt16.ofNat u :: ·)

/-- Octets in fours, each a code point. -/
def utf32Codes (big : Bool) : Bytes → Option (List ℕ)
  | [] => some []
  | a :: b :: c :: d :: bs =>
      let n := if big then 16777216 * a.toNat + 65536 * b.toNat + 256 * c.toNat + d.toNat
        else 16777216 * d.toNat + 65536 * c.toNat + 256 * b.toNat + a.toNat
      if n ≤ 0x10FFFF then (utf32Codes big bs).map (n :: ·) else none
  | _ => none

end SwarmAuth
