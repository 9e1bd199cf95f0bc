import SwarmAuth.Node.Wire
import SwarmAuth.Interop.Pins
import SwarmAuth.Lib.JsonWeight

/-!
# What Node signs, read back

The payload of claims is read back to the claims, unless an array has a hole, or the
constraints' text, put in as a replacement, has a pattern of `String.prototype.replace` in it.
Only the pins bring strings there: `$$` loses a dollar sign, and the other patterns close the
string they stand in.

## Main definitions

* `viewOf`, `jsonEqual_iff_viewOf` — what is compared of values.
* `GivesBack`, `RoundTrip` — the payload is JSON, and gives back the claims.
* `givesBack_iff` — it does when it is equal to the object that is encoded.
* `round_trip_of_free`, `parse_of_broken_pins`, `parse_of_collapsed_pins` — what is read.
* `round_trip_iff` — claims are read back just when no array has a hole and no pin a pattern.
-/
namespace SwarmAuth.Node

open Js Interop

/-! ## Views of what is read -/

section Views
variable {W W' X : Type} {S : Type}

theorem mapScalars_mapScalars (f : W → W') (g : W' → X) (t : Json.Tree W S) :
    (t.mapScalars f).mapScalars g = t.mapScalars fun w => g (f w) := by
  induction t using Json.Tree.ind with
  | scalar w => rfl
  | str s => rfl
  | arr items ih =>
      rw [Json.Tree.mapScalars_arr, Json.Tree.mapScalars_arr, Json.Tree.mapScalars_arr, List.map_map]
      exact congrArg _ (List.map_congr_left ih)
  | obj members ih =>
      rw [Json.Tree.mapScalars_obj, Json.Tree.mapScalars_obj, Json.Tree.mapScalars_obj, List.map_map]
      refine congrArg _ (List.map_congr_left fun m hm => ?_)
      exact congrArg (Prod.mk m.1) (ih m hm)

theorem keysNodup_mapScalars [DecidableEq S] (f : W → W') (t : Json.Tree W S) :
    (t.mapScalars f).keysNodup = t.keysNodup := by
  induction t using Json.Tree.ind with
  | scalar w => rfl
  | str s => rfl
  | arr items ih =>
      rw [Json.Tree.mapScalars_arr, Json.Tree.keysNodup_arr, Json.Tree.keysNodup_arr, List.all_map]
      exact Json.Tree.all_congr_mem ih
  | obj members ih =>
      rw [Json.Tree.mapScalars_obj, Json.Tree.keysNodup_obj, Json.Tree.keysNodup_obj, List.map_map,
        List.all_map]
      exact congrArg₂ _ rfl (Json.Tree.all_congr_mem ih)

theorem allStrs_mapScalars (f : W → W') (q : S → Bool) (t : Json.Tree W S) :
    (t.mapScalars f).allStrs q = t.allStrs q := by
  induction t using Json.Tree.ind with
  | scalar w => rfl
  | str s => rfl
  | arr items ih =>
      rw [Json.Tree.mapScalars_arr, Json.Tree.allStrs_arr, Json.Tree.allStrs_arr, List.all_map]
      exact Json.Tree.all_congr_mem ih
  | obj members ih =>
      rw [Json.Tree.mapScalars_obj, Json.Tree.allStrs_obj, Json.Tree.allStrs_obj, List.all_map]
      exact Json.Tree.all_congr_mem fun m hm => congrArg (q m.1 && ·) (ih m hm)

end Views

/-- What is compared of values, by exact numbers and sorted keys. -/
def viewOf (v : Value) : Json.Tree Exact Units := v.view Exact.ofJs id codePoints

theorem ofJs_unsigned (w : Scalar) : Exact.ofJs (unsigned w) = Exact.ofJs w := by
  cases w with
  | number d =>
      cases d with
      | finite neg mag =>
          by_cases hzero : mag.sig = 0
          · have hvalue : mag.value = 0 := by simp [Binary64.value, hzero]
            simp [unsigned, Exact.ofJs, Double.value?, hvalue]
          · simp [unsigned, hzero]
      | _ => rfl
  | _ => rfl

theorem portable_unsigned {w : Scalar} (h : portable w = true) : portable (unsigned w) = true := by
  cases w with
  | number d =>
      cases d with
      | finite neg mag => rfl
      | _ => exact h
  | _ => exact h

theorem portable_asRead {v : Value} (h : v.allScalars portable = true) :
    (asRead v).allScalars portable = true := by
  rw [asRead, Json.Tree.allScalars_mapScalars]
  exact Json.Tree.allScalars_mono (fun w hw => portable_unsigned hw) h

/-- Zero's sign is not compared. -/
theorem viewOf_asRead (v : Value) : viewOf (asRead v) = viewOf v := by
  rw [viewOf, viewOf, Json.Tree.view, Json.Tree.view, asRead, mapScalars_mapScalars]
  simp only [ofJs_unsigned]

theorem viewOf_canon (v : Value) : viewOf (v.canon codePoints) = viewOf v := by
  rw [viewOf, viewOf, Json.Tree.view, Json.Tree.view, Json.Tree.mapStrs_id, Json.Tree.mapStrs_id,
    ← Json.Tree.canon_mapScalars, Json.Tree.canon_canon]

/-- Values of JSON are equal when their views are. -/
theorem jsonEqual_iff_viewOf {a b : Value} (hp : a.allScalars portable = true)
    (ha : a.keysNodup = true) (hb : b.keysNodup = true) :
    jsonEqual a b = true ↔ viewOf a = viewOf b := by
  refine node_compares.iff_view Function.injective_id codePoints_injective ?_ ha hb
  refine Json.Tree.allScalars_mono (fun w hw => ?_) hp
  cases w with
  | number d =>
      cases d with
      | finite neg mag => rfl
      | inf neg => cases hw
      | nan => cases hw
  | undefined => cases hw
  | other => cases hw
  | hole => cases hw
  | _ => rfl

theorem portable_of_view {a b : Value} (h : viewOf a = viewOf b) :
    a.allScalars portable = b.allScalars portable := by
  have hplain : ∀ w, (Exact.ofJs w).plain = portable w := by
    intro w
    cases w with
    | number d => exact (isFinite_eq d).symm
    | _ => rfl
  have hview : ∀ v : Value, (viewOf v).allScalars Exact.plain = v.allScalars portable := by
    intro v
    rw [viewOf, Json.Tree.allScalars_view]
    simp only [hplain]
  rw [← hview, ← hview, h]

/-! ## The round trip -/

/-- A member that is read back. -/
def Kept (read : Object) (key : Units) (value : Value) : Prop :=
  ∃ v, read.lookup key = some v ∧ jsonEqual v value = true

/-- A member that is read back when it is set, and is absent when it is not. -/
def KeptIfSet (read : Object) (key : Units) (value : Value) : Prop :=
  if value.isNullish then read.hasOwn key = false else Kept read key value

/-- **Constraints that are read back**: limits that are not set are null, pins that are not set
none, and a shared budget that is not set is absent. -/
structure LimitsBack (given read : Object) : Prop where
  only : onlyKeys read ["allowed_params", "max_amount_usd", "max_calls", "rate_limit_per_min",
    "shared_budget"] = true
  allowedParams : Kept read "allowed_params" (orElse (given.get "allowed_params") (.obj []))
  maxAmountUsd : Kept read "max_amount_usd" (orElse (given.get "max_amount_usd") .null)
  maxCalls : Kept read "max_calls" (orElse (given.get "max_calls") .null)
  rateLimitPerMin : Kept read "rate_limit_per_min" (orElse (given.get "rate_limit_per_min") .null)
  sharedBudget : KeptIfSet read "shared_budget" (given.get "shared_budget")

/-- **Claims that are read back**: each is the one given, and `dlg` and `prf` are absent when they
are not set. -/
structure GivesBack (given read : Object) : Prop where
  only : onlyKeys read ["iss", "sub", "capabilities", "constraints", "iat", "exp", "jti", "dlg",
    "prf"] = true
  iss : Kept read "iss" (given.get "iss")
  sub : Kept read "sub" (given.get "sub")
  jti : Kept read "jti" (given.get "jti")
  capabilities : Kept read "capabilities" (given.get "capabilities")
  iat : Kept read "iat" (given.get "iat")
  exp : Kept read "exp" (given.get "exp")
  constraints : ∃ limits, read.lookup (lit "constraints") = some (.obj limits) ∧
    LimitsBack (objectOr (given.get "constraints")) limits
  dlg : KeptIfSet read "dlg" (given.get "dlg")
  prf : KeptIfSet read "prf" (given.get "prf")

/-- **The payload of claims is JSON, and gives them back.** -/
def RoundTrip (claims : Object) : Prop :=
  ∃ text read, claimsWire (withDefaults claims) = .ok text ∧ parseJson text = some (.obj read) ∧
    GivesBack claims read

/-! ## What is compared of objects -/

section Compared
variable {a b read : Object}

theorem onlyKeys_iff_subset {names : List Units} :
    onlyKeys a names = true ↔ a.map Prod.fst ⊆ names := by
  rw [onlyKeys, List.all_eq_true]
  constructor
  · intro h key hkey
    obtain ⟨m, hm, rfl⟩ := List.mem_map.mp hkey
    exact of_decide_eq_true (h m hm)
  · exact fun h m hm => decide_eq_true (h (List.mem_map_of_mem hm))

/-- **Objects are equal when each member is read back, and no other is there.** -/
theorem jsonEqual_obj_iff (ha : (a.map Prod.fst).Nodup) (hb : (b.map Prod.fst).Nodup) :
    jsonEqual (.obj a) (.obj b) = true ↔
      onlyKeys a (b.map Prod.fst) = true ∧ ∀ m ∈ b, Kept a m.1 m.2 := by
  rw [jsonEqual, Bool.and_eq_true, decide_eq_true_eq, jsonEqualMembers_iff, onlyKeys_iff_subset]
  constructor
  · rintro ⟨hlength, hmembers⟩
    have hsub : a.map Prod.fst ⊆ b.map Prod.fst := by
      intro key hkey
      obtain ⟨m, hm, rfl⟩ := List.mem_map.mp hkey
      obtain ⟨value, hvalue, -⟩ := hmembers m hm
      exact List.mem_map.mpr ⟨_, (Json.Tree.lookup_eq_some_iff hb).mp hvalue, rfl⟩
    have hperm := (List.subperm_of_subset ha hsub).perm_of_length_le
      (by rw [List.length_map, List.length_map, hlength])
    refine ⟨hsub, fun m hm => ?_⟩
    obtain ⟨n, hn, hkey⟩ := List.mem_map.mp (hperm.mem_iff.mpr (List.mem_map_of_mem hm))
    obtain ⟨value, hvalue, hequal⟩ := hmembers n hn
    rw [hkey, (Json.Tree.lookup_eq_some_iff hb).mpr hm, Option.some.injEq] at hvalue
    refine ⟨n.2, (Json.Tree.lookup_eq_some_iff ha).mpr ?_, hvalue ▸ hequal⟩
    rw [← hkey]
    exact hn
  · rintro ⟨hsub, hkept⟩
    have hback : b.map Prod.fst ⊆ a.map Prod.fst := by
      intro key hkey
      obtain ⟨m, hm, rfl⟩ := List.mem_map.mp hkey
      obtain ⟨value, hvalue, -⟩ := hkept m hm
      exact List.mem_map.mpr ⟨_, (Json.Tree.lookup_eq_some_iff ha).mp hvalue, rfl⟩
    have hle := (List.subperm_of_subset ha hsub).length_le
    have hge := (List.subperm_of_subset hb hback).length_le
    rw [List.length_map, List.length_map] at hle hge
    refine ⟨le_antisymm hle hge, fun m hm => ?_⟩
    obtain ⟨n, hn, hkey⟩ := List.mem_map.mp (hsub (List.mem_map_of_mem hm))
    obtain ⟨value, hvalue, hequal⟩ := hkept n hn
    rw [hkey, (Json.Tree.lookup_eq_some_iff ha).mpr hm, Option.some.injEq] at hvalue
    refine ⟨n.2, (Json.Tree.lookup_eq_some_iff hb).mpr ?_, hvalue ▸ hequal⟩
    rw [← hkey]
    exact hn

theorem hasOwn_iff {key : Units} : a.hasOwn key = true ↔ key ∈ a.map Prod.fst := by
  rw [Object.hasOwn, ← not_iff_not, Bool.not_eq_true, Option.isSome_eq_false_iff,
    Option.isNone_iff_eq_none]
  constructor
  · intro hnone hkey
    obtain ⟨m, hm, rfl⟩ := List.mem_map.mp hkey
    have hne := List.lookup_eq_none_iff.mp hnone m hm
    simp at hne
  · exact Json.Tree.lookup_eq_none

/-- **Members that are always there, and others that are when they are set**: what is read is equal
to them when it keeps the ones, keeps the others if they are set, and has no more. -/
theorem jsonEqual_body_iff {base optional : Object} (hread : (read.map Prod.fst).Nodup)
    (hnames : ((base ++ optional).map Prod.fst).Nodup) :
    jsonEqual (.obj read) (.obj (base ++ optional.filter fun m => !m.2.isNullish)) = true ↔
      onlyKeys read ((base ++ optional).map Prod.fst) = true ∧ (∀ m ∈ base, Kept read m.1 m.2) ∧
        ∀ m ∈ optional, KeptIfSet read m.1 m.2 := by
  have hsub : ((base ++ optional.filter fun m => !m.2.isNullish).map Prod.fst).Sublist
      ((base ++ optional).map Prod.fst) :=
    ((List.Sublist.refl base).append List.filter_sublist).map Prod.fst
  rw [jsonEqual_obj_iff hread (hnames.sublist hsub), List.forall_mem_append, onlyKeys_iff_subset,
    onlyKeys_iff_subset]
  have hparts := hnames
  rw [List.map_append, List.nodup_append] at hparts
  obtain ⟨-, hoptional, hapart⟩ := hparts
  constructor
  · rintro ⟨honly, hbase, hset⟩
    refine ⟨fun key hkey => hsub.subset (honly hkey), hbase, fun m hm => ?_⟩
    rw [KeptIfSet]
    split_ifs with hnull
    · rw [Bool.eq_false_iff, ne_eq, hasOwn_iff]
      intro hmem
      obtain ⟨n, hn, hkey⟩ := List.mem_map.mp (honly hmem)
      rcases List.mem_append.mp hn with hfirst | hkept
      · exact hapart n.1 (List.mem_map_of_mem hfirst) m.1 (List.mem_map_of_mem hm) hkey
      · obtain ⟨hn, hvalue⟩ := List.mem_filter.mp hkept
        obtain rfl := List.inj_on_of_nodup_map hoptional hn hm hkey
        rw [hnull] at hvalue
        exact Bool.noConfusion hvalue
    · exact hset m (List.mem_filter.mpr ⟨hm, by rw [Bool.eq_false_iff.mpr hnull]; rfl⟩)
  · rintro ⟨honly, hbase, hoptional⟩
    refine ⟨fun key hkey => ?_, hbase, fun m hm => ?_⟩
    · obtain ⟨m, hm, rfl⟩ := List.mem_map.mp (honly hkey)
      rcases List.mem_append.mp hm with hfirst | hset
      · exact List.mem_map_of_mem (List.mem_append_left _ hfirst)
      · have hkept := hoptional m hset
        rw [KeptIfSet] at hkept
        split_ifs at hkept with hnull
        · exact absurd (hasOwn_iff.mpr hkey) (Bool.eq_false_iff.mp hkept)
        · exact List.mem_map_of_mem (List.mem_append_right _
            (List.mem_filter.mpr ⟨hset, by rw [Bool.eq_false_iff.mpr hnull]; rfl⟩))
    · obtain ⟨hset, hvalue⟩ := List.mem_filter.mp hm
      have hkept := hoptional m hset
      rwa [KeptIfSet, if_neg (by simpa using hvalue)] at hkept

theorem onlyKeys_congr {names names' : List Units} (h : names.Perm names') :
    onlyKeys a names = onlyKeys a names' := by
  simp only [onlyKeys, h.mem_iff]

/-- **Constraints are read back when they are equal to those with their defaults.** -/
theorem limitsBack_iff {given : Object} (hread : (read.map Prod.fst).Nodup) :
    LimitsBack given read ↔ jsonEqual (.obj read) (.obj (emptyConstraintsObject given)) = true := by
  let base : Object := [(lit "allowed_params", orElse (given.get "allowed_params") (.obj [])),
    (lit "max_amount_usd", orElse (given.get "max_amount_usd") .null),
    (lit "max_calls", orElse (given.get "max_calls") .null),
    (lit "rate_limit_per_min", orElse (given.get "rate_limit_per_min") .null)]
  let optional : Object := [(lit "shared_budget", given.get "shared_budget")]
  have hbody : emptyConstraintsObject given = base ++ optional.filter fun m => !m.2.isNullish := by
    rw [emptyConstraintsObject]
    cases hnull : (given.get "shared_budget").isNullish <;> simp [base, optional, hnull]
  have hnames : (base ++ optional).map Prod.fst = [lit "allowed_params", lit "max_amount_usd",
      lit "max_calls", lit "rate_limit_per_min", lit "shared_budget"] := rfl
  rw [hbody, jsonEqual_body_iff hread (by rw [hnames]; decide), hnames]
  simp only [base, optional, List.forall_mem_cons, List.not_mem_nil, false_imp_iff, implies_true,
    and_true]
  constructor
  · intro h
    exact ⟨h.only, ⟨h.allowedParams, h.maxAmountUsd, h.maxCalls, h.rateLimitPerMin⟩, h.sharedBudget⟩
  · rintro ⟨honly, ⟨hallowed, hamount, hcalls, hrate⟩, hbudget⟩
    exact ⟨honly, hallowed, hamount, hcalls, hrate, hbudget⟩

/-- **Claims are read back when they are equal to the object that is encoded.** -/
theorem givesBack_iff {claims : Object} (hread : (Json.Tree.obj read : Value).keysNodup = true)
    (hset : WellSet claims) :
    GivesBack claims read ↔
      jsonEqual (.obj read) (.obj (wireBody (withDefaults claims))) = true := by
  let base : Object := [(lit "capabilities", claims.get "capabilities"),
    (lit "constraints", .obj (emptyConstraintsObject (objectOr (claims.get "constraints")))),
    (lit "exp", claims.get "exp"), (lit "iat", claims.get "iat"), (lit "iss", claims.get "iss"),
    (lit "jti", claims.get "jti"), (lit "sub", claims.get "sub")]
  let optional : Object := [(lit "dlg", claims.get "dlg"), (lit "prf", claims.get "prf")]
  have hget : ∀ key, key ≠ lit "constraints" → (withDefaults claims).get key = claims.get key :=
    get_withDefaults
  have htruthy : ∀ key, key = lit "dlg" ∨ key = lit "prf" → truthyMember (withDefaults claims) key =
      [(key, claims.get key)].filter fun m => !m.2.isNullish := by
    intro key hkey
    have hne : key ≠ lit "constraints" := by
      rcases hkey with rfl | rfl <;> decide
    rw [truthyMember, hget key hne, hset key hkey]
    cases hnull : (claims.get key).isNullish <;> simp [hnull]
  have hbody : wireBody (withDefaults claims) = base ++ optional.filter fun m => !m.2.isNullish := by
    rw [wireBody, htruthy _ (Or.inl rfl), htruthy _ (Or.inr rfl), get_constraints_withDefaults,
      hget (lit "capabilities") (by decide), hget (lit "exp") (by decide), hget (lit "iat") (by decide),
      hget (lit "iss") (by decide), hget (lit "jti") (by decide), hget (lit "sub") (by decide),
      List.append_assoc, ← List.filter_append]
    rfl
  have hnames : (base ++ optional).map Prod.fst = [lit "capabilities", lit "constraints", lit "exp",
      lit "iat", lit "iss", lit "jti", lit "sub", lit "dlg", lit "prf"] := rfl
  have hconstraints : Kept read "constraints"
        (.obj (emptyConstraintsObject (objectOr (claims.get "constraints")))) ↔
      ∃ limits, read.lookup (lit "constraints") = some (.obj limits) ∧
        LimitsBack (objectOr (claims.get "constraints")) limits := by
    have hlimits : ∀ limits, read.lookup (lit "constraints") = some (.obj limits) →
        (limits.map Prod.fst).Nodup := fun limits hlookup => keys_nodup (keysNodup_member hread
          (m := (lit "constraints", .obj limits)) ((Json.Tree.lookup_eq_some_iff (keys_nodup hread)).mp hlookup))
    constructor
    · rintro ⟨v, hv, hequal⟩
      cases v with
      | obj limits => exact ⟨limits, hv, (limitsBack_iff (hlimits limits hv)).mpr hequal⟩
      | _ => exact Bool.noConfusion hequal
    · rintro ⟨limits, hv, hback⟩
      exact ⟨_, hv, (limitsBack_iff (hlimits limits hv)).mp hback⟩
  have hsame : [lit "iss", lit "sub", lit "capabilities", lit "constraints", lit "iat", lit "exp",
      lit "jti", lit "dlg", lit "prf"].Perm ((base ++ optional).map Prod.fst) := by
    rw [hnames]
    decide
  rw [hbody, jsonEqual_body_iff (keys_nodup hread) (by rw [hnames]; decide), ← onlyKeys_congr hsame]
  simp only [base, optional, List.forall_mem_cons, List.not_mem_nil, false_imp_iff, implies_true,
    and_true]
  constructor
  · intro h
    exact ⟨h.only, ⟨h.capabilities, hconstraints.mpr h.constraints, h.exp, h.iat, h.iss, h.jti, h.sub⟩,
      h.dlg, h.prf⟩
  · rintro ⟨honly, ⟨hcapabilities, hlimits, hexp, hiat, hiss, hjti, hsub⟩, hdlg, hprf⟩
    exact ⟨honly, hiss, hsub, hjti, hcapabilities, hiat, hexp, hconstraints.mp hlimits, hdlg, hprf⟩

/-! ## Scalars that are read and written -/

/-- A scalar that `JSON.parse` gives. -/
def readable : Scalar → Bool
  | .null | .bool _ | .number _ => true
  | _ => false

/-- A scalar that is encoded. -/
def writable (w : Scalar) : Bool := portable w || w = .hole

theorem readable_classify {text : List ℕ} {w : Scalar} (h : classify text = some w) : readable w = true := by
  rw [classify] at h
  split_ifs at h
  · rw [← Option.some.inj h, readable]
  · rw [← Option.some.inj h, readable]
  · rw [← Option.some.inj h, readable]
  · obtain ⟨n, -, rfl⟩ := Option.map_eq_some_iff.mp h
    rfl

theorem readable_parseJson {text : List ℕ} {v : Value} (h : parseJson text = some v) :
    v.allScalars readable = true := by
  obtain ⟨t, ht, rfl⟩ := Option.map_eq_some_iff.mp h
  exact Json.Tree.allScalars_lastWins (Json.allScalars_parse (fun _ _ => readable_classify) ht)

theorem writable_of_encode {v : Value} {text : List ℕ} (h : encode v = .ok text) :
    v.allScalars writable = true := by
  refine allScalars_of_encodeWith (fun w text hw => ?_) h
  cases w with
  | number d =>
      rw [encodeScalar] at hw
      split_ifs at hw with hfinite
      exact Bool.or_eq_true_iff.mpr (Or.inl hfinite)
  | undefined => cases hw
  | other => cases hw
  | _ => rfl

theorem keysNodup_parseJson {text : List ℕ} {v : Value} (h : parseJson text = some v) :
    v.keysNodup = true := by
  obtain ⟨t, -, rfl⟩ := Option.map_eq_some_iff.mp h
  exact Json.Tree.keysNodup_lastWins t

/-- **What is read and is equal to what was encoded is JSON.** -/
theorem portable_of_jsonEqual {v b : Value} (hv : v.allScalars readable = true)
    (hb : b.allScalars writable = true) (h : jsonEqual v b = true) : v.allScalars portable = true := by
  induction v using Json.Tree.ind generalizing b with
  | scalar w =>
      cases b with
      | scalar u =>
          rw [jsonEqual] at h
          cases w with
          | number d =>
              cases u with
              | number e =>
                  have he : isFinite e = true := by simpa [writable, portable] using hb
                  rw [strictEqual, Bool.and_eq_true, decide_eq_true_eq] at h
                  cases e with
                  | finite neg mag =>
                      cases d with
                      | finite neg' mag' => rfl
                      | inf neg' => cases h.1
                      | nan => cases h.1
                  | _ => cases he
              | _ => cases h
          | null => rfl
          | bool b => rfl
          | _ => cases hv
      | _ => cases h
  | str s => rfl
  | arr items ih =>
      rw [Json.Tree.allScalars_arr, List.all_eq_true] at hv
      cases b with
      | arr ys =>
          rw [Json.Tree.allScalars_arr, List.all_eq_true] at hb
          have hread : ∀ a ∈ items, a ≠ Value.hole ∧ a ≠ Value.undefined := by
            refine fun a ha => ⟨?_, ?_⟩ <;> rintro rfl
            · exact Bool.noConfusion (hv _ ha)
            · exact Bool.noConfusion (hv _ ha)
          rw [jsonEqual, Bool.and_eq_true, decide_eq_true_eq, jsonEqualItems_iff hread] at h
          rw [Json.Tree.allScalars_arr, List.all_eq_true]
          intro a ha
          obtain ⟨hlength, hget⟩ := List.forall₂_iff_get.mp h
          obtain ⟨i, hi, rfl⟩ := List.getElem_of_mem ha
          have hi' : i < ys.length := hlength ▸ hi
          exact ih _ ha (hv _ ha) (hb _ (List.get_mem ys ⟨i, hi'⟩)) (hget i hi hi')
      | _ => cases h
  | obj members ih =>
      rw [Json.Tree.allScalars_obj, List.all_eq_true] at hv
      cases b with
      | obj ns =>
          rw [jsonEqual, Bool.and_eq_true, jsonEqualMembers_iff] at h
          rw [Json.Tree.allScalars_obj, List.all_eq_true]
          intro m hm
          obtain ⟨y, hy, hequal⟩ := h.2 m hm
          obtain ⟨before, after, hns, -⟩ := List.lookup_eq_some_iff.mp hy
          exact ih m hm (hv m hm) (allScalars_member hb (m := (m.1, y)) (by rw [hns]; simp)) hequal
      | _ => cases h

theorem whole_of_portable {v : Value} (h : v.allScalars portable = true) : v.whole = true := by
  refine Json.Tree.allScalars_mono (fun w hw => decide_eq_true ?_) h
  rintro rfl
  cases hw

end Compared

section RoundTrip
variable {claims : Object}

theorem keysNodup_get {o : Object} (h : (Json.Tree.obj o : Value).keysNodup = true) (key : Units) :
    (o.get key).keysNodup = true := by
  rw [Object.get]
  cases hlookup : o.lookup key with
  | none => rfl
  | some value =>
      obtain ⟨before, after, ho, -⟩ := List.lookup_eq_some_iff.mp hlookup
      have hmember := keysNodup_member h (m := (key, value)) (by rw [ho]; simp)
      exact hmember

theorem keysNodup_emptyConstraints {limits : Object}
    (h : (Json.Tree.obj limits : Value).keysNodup = true) :
    (Json.Tree.obj (emptyConstraintsObject limits) : Value).keysNodup = true := by
  have horElse : ∀ (key : Units) (fallback : Value), fallback.keysNodup = true →
      (orElse (limits.get key) fallback).keysNodup = true := by
    intro key fallback hfallback
    rw [orElse]
    split_ifs
    · exact hfallback
    · exact keysNodup_get h key
  have hpins := horElse "allowed_params" (.obj []) rfl
  have hamount := horElse "max_amount_usd" .null rfl
  have hcalls := horElse "max_calls" .null rfl
  have hrate := horElse "rate_limit_per_min" .null rfl
  have hbudget := keysNodup_get h "shared_budget"
  rw [Json.Tree.keysNodup_obj, Bool.and_eq_true, decide_eq_true_eq, emptyConstraintsObject]
  split_ifs
  · refine ⟨?_, ?_⟩
    · simp only [List.append_nil, List.map_cons, List.map_nil]
      decide
    · simp only [List.append_nil, List.all_cons, List.all_nil, hpins, hamount, hcalls, hrate, Bool.and_self]
  · refine ⟨?_, ?_⟩
    · simp only [List.cons_append, List.nil_append, List.map_cons, List.map_nil]
      decide
    · simp only [List.cons_append, List.nil_append, List.all_cons, List.all_nil, hpins, hamount, hcalls,
        hrate, hbudget, Bool.and_self]

theorem keysNodup_wireBody (hmember : ∀ key, (claims.get key).keysNodup = true) :
    (Json.Tree.obj (wireBody claims) : Value).keysNodup = true := by
  rw [Json.Tree.keysNodup_obj, Bool.and_eq_true, decide_eq_true_eq, wireBody, truthyMember, truthyMember]
  split_ifs <;> refine ⟨?_, ?_⟩
  all_goals simp only [List.append_nil, List.cons_append, List.nil_append, List.map_cons, List.map_nil,
    List.all_cons, List.all_nil, hmember, Bool.and_self]
  all_goals decide

theorem keysNodup_body (h : (Json.Tree.obj claims : Value).keysNodup = true) :
    (Json.Tree.obj (wireBody (withDefaults claims)) : Value).keysNodup = true := by
  refine keysNodup_wireBody fun key => ?_
  by_cases hkey : key = lit "constraints"
  · have hobject : ∀ {v : Value}, v.keysNodup = true →
        (Json.Tree.obj (objectOr v) : Value).keysNodup = true := by
      intro v hv
      cases v with
      | obj ms => exact hv
      | _ => rfl
    rw [hkey]
    exact (congrArg Json.Tree.keysNodup get_constraints_withDefaults).trans
      (keysNodup_emptyConstraints (hobject (keysNodup_get h _)))
  · rw [get_withDefaults key hkey]
    exact keysNodup_get h key

theorem keysNodup_members {c : WireClaims} (hallowed : c.allowedParams.keysNodup = true)
    (hamount : c.maxAmountUsd.keysNodup = true) (hcalls : c.maxCalls.keysNodup = true)
    (hrate : c.rateLimitPerMin.keysNodup = true) (hexp : c.exp.keysNodup = true)
    (hiat : c.iat.keysNodup = true) : (Json.Tree.obj c.members : Value).keysNodup = true := by
  have hconstraints : (Json.Tree.obj c.constraints : Value).keysNodup = true := by
    have hkeys : (c.constraints.map Prod.fst).Nodup := by
      rw [WireClaims.constraints]
      cases c.sharedBudget <;>
        simp only [WireClaims.optional, Option.elim_none, Option.elim_some, List.append_nil,
          List.cons_append, List.nil_append, List.map_cons, List.map_nil] <;> decide
    rw [Json.Tree.keysNodup_obj, Bool.and_eq_true, decide_eq_true_eq]
    refine ⟨hkeys, ?_⟩
    rw [WireClaims.constraints]
    cases c.sharedBudget <;> simp [WireClaims.optional, hallowed, hamount, hcalls, hrate]
  have hkeys : (c.members.map Prod.fst).Nodup := by
    rw [WireClaims.members]
    cases c.dlg <;> cases c.prf <;>
      simp only [WireClaims.optional, Option.elim_none, Option.elim_some, List.append_nil,
        List.cons_append, List.nil_append, List.map_cons, List.map_nil] <;> decide
  rw [Json.Tree.keysNodup_obj, Bool.and_eq_true, decide_eq_true_eq]
  refine ⟨hkeys, ?_⟩
  have hstrings : (Json.Tree.arr (c.capabilities.map .str) : Value).keysNodup = true := by simp
  rw [WireClaims.members]
  cases c.dlg <;> cases c.prf <;>
    simp only [WireClaims.optional, Option.elim_none, Option.elim_some, List.append_nil,
      List.cons_append, List.nil_append, List.all_cons, List.all_nil, hconstraints, hstrings, hexp, hiat,
      Json.Tree.keysNodup_str, Bool.and_self]

theorem keysNodup_wireOf (hkeys : (Json.Tree.obj claims : Value).keysNodup = true)
    (h : ValidClaims claims) : (Json.Tree.obj (wireOf claims).members : Value).keysNodup = true := by
  have hlimits : (Json.Tree.obj (objectOr (claims.get "constraints")) : Value).keysNodup = true := by
    have hvalue := keysNodup_get hkeys "constraints"
    generalize claims.get "constraints" = value at hvalue ⊢
    cases value with
    | obj limits => exact hvalue
    | _ => rfl
  have hnumeric : ∀ {value : Value}, Numeric value → (orElse value .null).keysNodup = true := by
    intro value hvalue
    cases hvalue <;> rfl
  have htime : ∀ {value : Value}, (∃ d, value = .scalar (.number d) ∧ isFinite d = true) →
      value.keysNodup = true := by
    rintro _ ⟨d, rfl, -⟩
    rfl
  refine keysNodup_members ?_ (hnumeric h.constraints.maxAmountUsd) (hnumeric h.constraints.maxCalls)
    (hnumeric h.constraints.rateLimitPerMin) (htime h.exp) (htime h.iat)
  rw [wireOf, Json.Tree.keysNodup_canon, orElse]
  split_ifs
  · rfl
  · exact keysNodup_get hlimits "allowed_params"

theorem withAmount_wireOf (h : ValidClaims claims) :
    (wireOf claims).withAmount (amountScalar (wireOf claims).maxAmountUsd) = wireOf claims := by
  have hscalar : (.scalar (amountScalar (wireOf claims).maxAmountUsd) : Value) =
      (wireOf claims).maxAmountUsd := by
    obtain hnull | ⟨d, -, -, hnumber⟩ := h.constraints.maxAmountUsd.orElse_eq
    · rw [show (wireOf claims).maxAmountUsd = _ from hnull]
      rfl
    · rw [show (wireOf claims).maxAmountUsd = _ from hnumber]
      rfl
  rw [WireClaims.withAmount, hscalar]

/-- Values that are read to the claims that are written equal them. -/
theorem jsonEqual_wireBody (hkeys : (Json.Tree.obj claims : Value).keysNodup = true)
    (h : ValidClaims claims) {v : Value} (hv : v.allScalars portable = true)
    (hnodup : v.keysNodup = true) :
    jsonEqual v (.obj (wireBody (withDefaults claims))) = true ↔
      viewOf v = viewOf (.obj (wireOf claims).members) := by
  rw [jsonEqual_iff_viewOf hv hnodup (keysNodup_body hkeys), ← canon_wireBody h, viewOf_canon]

theorem keysNodup_asRead (hkeys : (Json.Tree.obj claims : Value).keysNodup = true)
    (h : ValidClaims claims) : (asRead (.obj (wireOf claims).members)).keysNodup = true :=
  (keysNodup_mapScalars ..).trans (keysNodup_wireOf hkeys h)

/-- The text of claims whose pins have no pattern. -/
theorem parse_of_free_pins (hkeys : (Json.Tree.obj claims : Value).keysNodup = true)
    (h : ValidClaims claims) (hfree : pinsFree claims = true) :
    ∃ text, claimsWire (withDefaults claims) = .ok text ∧
      parseJson text = some (asRead (.obj (wireOf claims).members)) := by
  have hparse := (wireOf claims).parse_text (amountText (wireOf claims).maxAmountUsd)
    (w := amountScalar (wireOf claims).maxAmountUsd) (portable_wireOf h)
    (reads_amountText h.constraints.maxAmountUsd)
  refine ⟨_, claimsWire_eq h hfree, ?_⟩
  rw [newText, parseJson, hparse, withAmount_wireOf h, Option.map_some,
    Json.Tree.lastWins_of_keysNodup _ (keysNodup_asRead hkeys h)]

/-- **Claims whose pins have no pattern are read back.** -/
theorem round_trip_of_free (hkeys : (Json.Tree.obj claims : Value).keysNodup = true)
    (h : ValidClaims claims) (hfree : pinsFree claims = true) : RoundTrip claims := by
  obtain ⟨text, htext, hparse⟩ := parse_of_free_pins hkeys h hfree
  have hportable := portable_asRead (portable_members (portable_wireOf h) (portable_amount h))
  have hnodup := keysNodup_asRead hkeys h
  have hview := viewOf_asRead (.obj (wireOf claims).members)
  rw [asRead, Json.Tree.mapScalars_obj] at hparse hportable hnodup hview
  refine ⟨text, _, htext, hparse, (givesBack_iff hnodup h.set).mpr ?_⟩
  rw [jsonEqual_wireBody hkeys h hportable hnodup, hview]

/-! ## Pins with patterns -/

/-- A string with its doubled dollar signs made single. -/
def single (s : Units) : Units := (collapse s).getD []

theorem length_single_le (s : Units) : (single s).length ≤ s.length := by
  rw [single]
  cases h : collapse s with
  | none => exact Nat.zero_le _
  | some t => exact length_collapse_le h

theorem length_single_lt {s : Units} (h : patternFree s = false) : (single s).length < s.length := by
  rw [single]
  cases hcollapse : collapse s with
  | none =>
      cases s with
      | nil => cases hcollapse
      | cons u s => simp
  | some t =>
      refine lt_of_le_of_ne (length_collapse_le hcollapse) fun hlength => ?_
      rw [patternFree_of_collapse hcollapse hlength] at h
      cases h

/-- What is read when every pattern is a doubled dollar sign. -/
def collapsed (c : WireClaims) : WireClaims :=
  { c with allowedParams := c.allowedParams.mapStrs single, sharedBudget := c.sharedBudget.map single }

theorem weight_collapsed_lt {c : WireClaims} (h : c.allowedParams.allStrs patternFree = false) :
    (Json.Tree.obj (collapsed c).members : Value).weight List.length <
      (Json.Tree.obj c.members : Value).weight List.length := by
  have hpins := Json.Tree.weight_mapStrs_lt length_single_le (fun s hs => length_single_lt hs) h
  have hconstraints : (Json.Tree.obj (collapsed c).constraints : Value).weight List.length <
      (Json.Tree.obj c.constraints : Value).weight List.length := by
    rw [Json.Tree.weight_obj, Json.Tree.weight_obj, WireClaims.constraints, WireClaims.constraints]
    cases hbudget : c.sharedBudget with
    | none =>
        simp only [collapsed, hbudget, WireClaims.optional, Option.map_none, Option.elim_none,
          List.append_nil, List.map_cons, List.map_nil, List.sum_cons, List.sum_nil]
        omega
    | some b =>
        have hb := length_single_le b
        simp only [collapsed, hbudget, WireClaims.optional, Option.map_some, Option.elim_some,
          List.cons_append, List.nil_append, List.map_cons, List.map_nil, List.sum_cons, List.sum_nil,
          Json.Tree.weight_str]
        omega
  rw [Json.Tree.weight_obj, Json.Tree.weight_obj, WireClaims.members, WireClaims.members]
  simp only [List.map_append, List.map_cons, List.map_nil, List.sum_append, List.sum_cons, List.sum_nil]
  simp only [collapsed] at hconstraints ⊢
  omega

section Expanded
variable {matched before after : List ℕ}

theorem expandedText_of_collapse {v : Value} (h : v.allStrs (fun s => (collapse s).isSome) = true) :
    expandedText matched before after v = WireClaims.valueText (v.mapStrs single) := by
  have hstring : ∀ s : Units, (collapse s).isSome = true →
      expand matched before after (quoted s) = quoted (single s) := by
    intro s hs
    obtain ⟨t, ht⟩ := Option.isSome_iff_exists.mp hs
    rw [expand_quoted_of_collapse ht, single, ht, Option.getD_some]
  induction v using Json.Tree.ind with
  | scalar w =>
      rw [expandedText, Json.write_scalar, Json.Tree.mapStrs_scalar, WireClaims.valueText, Json.render_scalar]
  | str s =>
      rw [expandedText, Json.write_str, Json.Tree.mapStrs_str, WireClaims.valueText_str]
      exact hstring s h
  | arr items ih =>
      rw [Json.Tree.allStrs_arr, List.all_eq_true] at h
      rw [expandedText, Json.write_arr, Json.Tree.mapStrs_arr, WireClaims.valueText, Json.render_arr,
        List.map_map]
      refine congrArg (fun parts => 91 :: [44].intercalate parts ++ [93]) ?_
      exact List.map_congr_left fun t ht => ih t ht (h t ht)
  | obj members ih =>
      rw [Json.Tree.allStrs_obj, List.all_eq_true] at h
      rw [expandedText, Json.write_obj, Json.Tree.mapStrs_obj, WireClaims.render_obj_members, List.map_map]
      refine congrArg (fun parts => 123 :: [44].intercalate parts ++ [125]) ?_
      refine List.map_congr_left fun m hm => ?_
      obtain ⟨hkey, hvalue⟩ := Bool.and_eq_true_iff.mp (h m hm)
      have hm' : Json.write scalarText (fun s => expand matched before after (quoted s)) m.2 =
          WireClaims.valueText (m.2.mapStrs single) := ih m hm hvalue
      rw [hstring m.1 hkey, hm', Function.comp_apply, WireClaims.keyText, List.append_assoc]
      rfl

theorem scalarText_unsigned (w : Scalar) : scalarText (unsigned w) = scalarText w := by
  cases w with
  | number d =>
      cases d with
      | finite neg mag => cases neg <;> simp [unsigned, scalarText, numberText]
      | _ => rfl
  | _ => rfl

theorem expandedText_asRead (v : Value) :
    expandedText matched before after (asRead v) = expandedText matched before after v := by
  induction v using Json.Tree.ind with
  | scalar w => exact scalarText_unsigned w
  | str s => rfl
  | arr items ih =>
      rw [asRead, Json.Tree.mapScalars_arr, expandedText, expandedText, Json.write_arr, Json.write_arr,
        List.map_map]
      refine congrArg (fun parts => 91 :: [44].intercalate parts ++ [93]) ?_
      exact List.map_congr_left ih
  | obj members ih =>
      rw [asRead, Json.Tree.mapScalars_obj, expandedText, expandedText, Json.write_obj, Json.write_obj,
        List.map_map]
      refine congrArg (fun parts => 123 :: [44].intercalate parts ++ [125]) ?_
      exact List.map_congr_left fun m hm => congrArg (_ ++ 58 :: ·) (ih m hm)

/-- Another pattern in a value breaks its text. -/
theorem broken_expandedText {v : Value} (hv : v.allScalars portable = true)
    (h : v.allStrs (fun s => (collapse s).isSome) = false)
    (hclosing : ∀ insert ∈ [matched, before, after], Closing insert) :
    Json.Broken classify (expandedText matched before after v) := by
  have hread : (asRead v).allScalars (fun w => portable w && decide (unsigned w = w)) = true := by
    rw [asRead, Json.Tree.allScalars_mapScalars]
    refine Json.Tree.allScalars_mono (fun w hw => ?_) hv
    rw [portable_unsigned hw, Bool.true_and, decide_eq_true_eq]
    cases w with
    | number d => cases d <;> simp [unsigned]
    | _ => rfl
  rw [← expandedText_asRead]
  refine Json.broken_write single (p := fun w => portable w && decide (unsigned w = w))
    (q := fun s => (collapse s).isSome) ?_ ?_ ?_ hread ?_
  · intro w hw
    obtain ⟨hportable, hsame⟩ := Bool.and_eq_true_iff.mp hw
    have hreads := reads_scalarText hportable
    rw [decide_eq_true_eq] at hsame
    exact ⟨hreads.ne_nil, hreads.word, hreads.classified.trans (congrArg some hsame)⟩
  · intro s hs
    obtain ⟨t, ht⟩ := Option.isSome_iff_exists.mp hs
    rw [expand_quoted_of_collapse ht, single, ht, Option.getD_some]
    exact fun out => Json.lexRun_strText classify scalarText out t
  · intro s hs
    exact broken_quoted (Option.isNone_iff_eq_none.mp (by simpa using hs)) hclosing
  · rw [asRead]
    exact (allStrs_mapScalars ..).trans h

end Expanded

/-! ## The condition -/

/-- What follows the pins in the constraints' text. -/
def afterPins (c : WireClaims) : List ℕ :=
  [44] ++ (WireClaims.keyText (lit "max_amount_usd") ++ amountText c.maxAmountUsd) ++ c.pinBack

theorem expand_newText {matched before after : List ℕ} {c : WireClaims}
    (h : c.allowedParams.allScalars portable = true) :
    expand matched before after (WireClaims.keyText (lit "constraints") ++ newText c) =
      WireClaims.keyText (lit "constraints") ++ 123 :: (WireClaims.keyText (lit "allowed_params") ++
        (expandedText matched before after c.allowedParams ++
          expand matched before after (afterPins c))) := by
  have hsplit : WireClaims.keyText (lit "constraints") ++ newText c =
      (WireClaims.keyText (lit "constraints") ++ [123] ++ WireClaims.keyText (lit "allowed_params")) ++
        (WireClaims.valueText c.allowedParams ++ afterPins c) := by
    simp [newText, WireClaims.constraintsText, WireClaims.pinFront, afterPins]
  rw [hsplit, expand_append (by decide), expand_valueText h]
  simp

theorem broken_key (key : Units) {text : List ℕ} (h : Json.Broken classify text) :
    Json.Broken classify (WireClaims.keyText key ++ text) := by
  have hkey : Json.StrText classify (quoted key) key :=
    fun out => Json.lexRun_strText classify scalarText out key
  rw [WireClaims.keyText, List.append_assoc]
  exact hkey.append_broken (Json.Broken.punct_cons (p := .colon) rfl h)

theorem closing_key (key : Units) {c : ℕ} (hkey : WireClaims.keyText key =
    34 :: c :: (WireClaims.keyText key).drop 2) (hc : Json.isWordCode c = true) (front : List ℕ)
    (hfront : ∀ c ∈ front, c = 44 ∨ c = 123) (tail : List ℕ) :
    Closing (front ++ (WireClaims.keyText key ++ tail)) :=
  ⟨front, c, (WireClaims.keyText key).drop 2 ++ tail, congrArg (fun t => front ++ (t ++ tail)) hkey,
    hc, hfront⟩

theorem closing_inserts (c : WireClaims) :
    ∀ insert ∈ [WireClaims.keyText (lit "constraints") ++ oldText c, c.front ++ [44], c.back],
      Closing insert := by
  intro insert hinsert
  simp only [List.mem_cons, List.not_mem_nil, or_false] at hinsert
  rcases hinsert with rfl | rfl | rfl
  · exact closing_key (lit "constraints") (c := 99) (by decide) (by decide) [] (by simp) (oldText c)
  · have h := closing_key (lit "capabilities") (c := 99) (by decide) (by decide) [123]
      (by simp) (WireClaims.stringsText c.capabilities ++ [44])
    simpa [WireClaims.front] using h
  · rw [WireClaims.back]
    cases c.dlg with
    | none =>
        simp only [WireClaims.optionalText, Option.elim_none, List.nil_append, List.append_assoc]
        exact closing_key (lit "exp") (c := 101) (by decide) (by decide) [44] (by simp) _
    | some d =>
        simp only [WireClaims.optionalText, Option.elim_some, List.append_assoc]
        exact closing_key (lit "dlg") (c := 100) (by decide) (by decide) [44] (by simp) _

/-- Pins with another pattern leave no JSON. -/
theorem parse_of_broken_pins (h : ValidClaims claims)
    (hpins : (wireOf claims).allowedParams.allStrs (fun s => (collapse s).isSome) = false) :
    ∃ text, claimsWire (withDefaults claims) = .ok text ∧ parseJson text = none := by
  have hclaims := claimsWire_expand h
  rw [expand_newText (portable_wireOf h).allowedParams] at hclaims
  refine ⟨_, hclaims, ?_⟩
  have hbroken := broken_expandedText (portable_wireOf h).allowedParams hpins
    (closing_inserts (wireOf claims))
  have hfront : ∃ g, Json.Spells classify (WireClaims.keyText (lit "capabilities") ++
      WireClaims.stringsText (wireOf claims).capabilities) g := by
    have hstrings : Json.Spells classify (WireClaims.stringsText (wireOf claims).capabilities)
        (Json.tokens ((Json.Tree.arr ((wireOf claims).capabilities.map .str) : Value).mapStrs id)) := by
      rw [← WireClaims.valueText_strings, WireClaims.valueText, Json.render_eq_write]
      refine Json.Spells.write (p := fun _ => false) (q := fun _ => true)
        (fun _ hw => by cases hw) (fun s _ out => Json.lexRun_strText classify scalarText out s) (by simp) (by simp)
    have hkey : Json.StrText classify (quoted (lit "capabilities")) (lit "capabilities") :=
      fun out => Json.lexRun_strText classify scalarText out _
    have hmember := (hstrings.punct_cons (c := 58) (p := .colon) rfl).str_cons hkey
    exact ⟨_, by rwa [WireClaims.keyText, List.append_assoc]⟩
  obtain ⟨g, hg⟩ := hfront
  have htext := Json.Broken.punct_cons (c := 123) (p := .lbrace) rfl (hg.append_broken (c := 44) (p := .comma) rfl
    (broken_key (lit "constraints") (Json.Broken.punct_cons (c := 123) (p := .lbrace) rfl
      (broken_key (lit "allowed_params") (hbroken.append
        (expand (WireClaims.keyText (lit "constraints") ++ oldText (wireOf claims))
          ((wireOf claims).front ++ [44]) (wireOf claims).back (afterPins (wireOf claims)) ++
          (wireOf claims).back))))))
  rw [parseJson, Option.map_eq_none_iff]
  refine Json.parse_of_broken ?_
  convert htext using 1
  simp [WireClaims.front]

/-- After the pins only the budget's name has patterns. -/
theorem expand_afterPins {matched before after : List ℕ} (h : ValidClaims claims)
    (hstrs : (wireOf claims).allowedParams.allStrs (fun s => (collapse s).isSome) = true) :
    expand matched before after (afterPins (wireOf claims)) = afterPins (collapsed (wireOf claims)) := by
  have hnumeric : ∀ {value : Value}, Numeric value → 36 ∉ WireClaims.valueText (orElse value .null) := by
    intro value hvalue hmem
    rw [WireClaims.valueText] at hmem
    rcases hvalue.orElse_eq with hnull | ⟨d, hd, -, hnumber⟩
    · rw [hnull, Json.render_scalar] at hmem
      exact absurd hmem (by decide)
    · rw [hnumber, Json.render_scalar] at hmem
      exact absurd ((reads_scalarText (w := .number d) hd).word 36 hmem) (by decide)
  have hamount : 36 ∉ amountText (wireOf claims).maxAmountUsd := fun hmem =>
    absurd ((reads_amountText h.constraints.maxAmountUsd).word 36 hmem) (by decide)
  have hkeys : ∀ key ∈ ["max_amount_usd", "max_calls", "rate_limit_per_min"],
      36 ∉ WireClaims.keyText (lit key) := by decide
  have hcalls : 36 ∉ WireClaims.valueText (wireOf claims).maxCalls := hnumeric h.constraints.maxCalls
  have hrate : 36 ∉ WireClaims.valueText (wireOf claims).rateLimitPerMin :=
    hnumeric h.constraints.rateLimitPerMin
  let numbers : List ℕ := [44] ++
    (WireClaims.keyText (lit "max_amount_usd") ++ amountText (wireOf claims).maxAmountUsd) ++ [44] ++
    WireClaims.keyText (lit "max_calls") ++ WireClaims.valueText (wireOf claims).maxCalls ++ [44] ++
    WireClaims.keyText (lit "rate_limit_per_min") ++ WireClaims.valueText (wireOf claims).rateLimitPerMin
  have hnumbers : 36 ∉ numbers := by
    simp only [numbers, List.mem_append, not_or]
    simp [hamount, hcalls, hrate, hkeys]
  have hsplit : ∀ c : WireClaims, c.maxAmountUsd = (wireOf claims).maxAmountUsd →
      c.maxCalls = (wireOf claims).maxCalls → c.rateLimitPerMin = (wireOf claims).rateLimitPerMin →
      afterPins c = numbers ++ (WireClaims.optionalText (lit "shared_budget") c.sharedBudget ++ [125]) := by
    intro c hamount hcalls hrate
    simp [afterPins, WireClaims.pinBack, numbers, hamount, hcalls, hrate]
  rw [hsplit (wireOf claims) rfl rfl rfl, hsplit (collapsed (wireOf claims)) rfl rfl rfl,
    expand_append hnumbers]
  refine congrArg (numbers ++ ·) ?_
  rw [show (collapsed (wireOf claims)).sharedBudget = (wireOf claims).sharedBudget.map single from rfl]
  cases hb : (wireOf claims).sharedBudget with
  | none => exact expand_of_not_mem (by decide)
  | some b =>
      obtain ⟨t, ht⟩ := Option.isSome_iff_exists.mp (budget_of_allStrs h hstrs hb)
      rw [WireClaims.optionalText, Option.elim_some, List.append_assoc, expand_append (by decide),
        expand_quoted, expand_quoted_of_collapse ht, expand_of_not_mem (by decide), Option.map_some,
        WireClaims.optionalText, Option.elim_some, single, ht, Option.getD_some]
      simp

theorem portable_collapsed (h : ValidClaims claims) : (collapsed (wireOf claims)).Portable := by
  have hportable := portable_wireOf h
  refine ⟨?_, hportable.maxCalls, hportable.rateLimitPerMin, hportable.exp, hportable.iat⟩
  exact (Json.Tree.allScalars_mapStrs ..).trans hportable.allowedParams

/-- Pins whose patterns are doubled dollar signs are read with single ones. -/
theorem parse_of_collapsed_pins (h : ValidClaims claims)
    (hstrs : (wireOf claims).allowedParams.allStrs (fun s => (collapse s).isSome) = true) :
    ∃ text, claimsWire (withDefaults claims) = .ok text ∧
      Json.parse classify text = some (asRead (.obj (collapsed (wireOf claims)).members)) := by
  have hportable := portable_wireOf h
  have hclaims := claimsWire_expand h
  rw [expand_newText hportable.allowedParams, expandedText_of_collapse hstrs, expand_afterPins h hstrs]
    at hclaims
  have hparse := (collapsed (wireOf claims)).parse_text (amountText (wireOf claims).maxAmountUsd)
    (w := amountScalar (wireOf claims).maxAmountUsd) (portable_collapsed h)
    (reads_amountText h.constraints.maxAmountUsd)
  have hamount : (collapsed (wireOf claims)).withAmount (amountScalar (wireOf claims).maxAmountUsd) =
      collapsed (wireOf claims) :=
    congrArg collapsed (withAmount_wireOf h)
  rw [hamount] at hparse
  refine ⟨_, hclaims, ?_⟩
  rw [← hparse]
  congr 1
  simp [WireClaims.text, WireClaims.constraintsText, WireClaims.pinFront, afterPins, collapsed,
    WireClaims.front, WireClaims.back]

/-- Claims that are read back have no pattern in their pins. -/
theorem pinsFree_of_round_trip (hkeys : (Json.Tree.obj claims : Value).keysNodup = true)
    (h : ValidClaims claims) (hround : RoundTrip claims) : pinsFree claims = true := by
  by_contra hpins
  obtain ⟨text, read, htext, hv, hback⟩ := hround
  have hequal := (givesBack_iff (keysNodup_parseJson hv) h.set).mp hback
  cases hstrs : (wireOf claims).allowedParams.allStrs (fun s => (collapse s).isSome) with
  | false =>
      obtain ⟨text', htext', hnone⟩ := parse_of_broken_pins h hstrs
      rw [htext] at htext'
      rw [← Except.ok.inj htext', hv] at hnone
      cases hnone
  | true =>
      obtain ⟨text', htext', hparse⟩ := parse_of_collapsed_pins h hstrs
      rw [htext] at htext'
      rw [← Except.ok.inj htext'] at hparse
      rw [parseJson, hparse, Option.map_some, Option.some.injEq] at hv
      have hlt := weight_collapsed_lt (allStrs_wireOf.trans (Bool.eq_false_iff.mpr hpins))
      have hle := Json.Tree.weight_lastWins_le List.length
        (asRead (.obj (collapsed (wireOf claims)).members))
      have hportable : (Json.Tree.obj read : Value).allScalars portable = true := by
        rw [← hv]
        exact Json.Tree.allScalars_lastWins
          (portable_asRead (portable_members (portable_collapsed h) (portable_amount h)))
      rw [jsonEqual_wireBody hkeys h hportable (hv ▸ Json.Tree.keysNodup_lastWins _)] at hequal
      have hweight : ∀ u : Value, (viewOf u).weight List.length = u.weight List.length := by
        intro u
        rw [viewOf, Json.Tree.view, Json.Tree.mapStrs_id, Json.Tree.weight_canon,
          Json.Tree.weight_mapScalars]
      have hsame := congrArg (Json.Tree.weight List.length) hequal
      rw [hweight, hweight, ← hv] at hsame
      have hread := Json.Tree.weight_mapScalars List.length unsigned
        (.obj (collapsed (wireOf claims)).members : Value)
      rw [asRead] at hle hsame
      omega

/-- Arrays of claims that are encoded and read back are whole. -/
theorem wholeArrays_of_givesBack {read : Object} {text : List ℕ}
    (hkeys : (Json.Tree.obj claims : Value).keysNodup = true)
    (htext : claimsWire (withDefaults claims) = .ok text)
    (hread : (Json.Tree.obj read : Value).allScalars readable = true)
    (hnodup : (Json.Tree.obj read : Value).keysNodup = true)
    (hback : jsonEqual (.obj read) (.obj (wireBody (withDefaults claims))) = true) :
    wholeArrays claims = true := by
  obtain ⟨encoded, hencoded, -⟩ := bind_eq_ok.mp htext
  have hportable := portable_of_jsonEqual hread (writable_of_encode hencoded) hback
  have hview := (jsonEqual_iff_viewOf hportable hnodup (keysNodup_body hkeys)).mp hback
  have hbody : (Json.Tree.obj (wireBody (withDefaults claims)) : Value).allScalars portable = true :=
    (portable_of_view hview).symm.trans hportable
  rw [wireBody, List.append_assoc, Json.Tree.allScalars_obj, List.all_append, Bool.and_eq_true] at hbody
  have hmembers := hbody.1
  rw [get_constraints_withDefaults, get_withDefaults (lit "capabilities") (by decide)] at hmembers
  simp only [List.all_cons, Bool.and_eq_true] at hmembers
  obtain ⟨hcapabilities, hconstraints, -⟩ := hmembers
  rw [emptyConstraintsObject, Json.Tree.allScalars_obj, List.all_append, Bool.and_eq_true] at hconstraints
  have hpins := hconstraints.1
  simp only [List.all_cons, Bool.and_eq_true] at hpins
  rw [wholeArrays, Bool.and_eq_true]
  exact ⟨whole_of_portable hcapabilities, whole_of_portable hpins.1⟩

/-- **Claims are read back just when no array has a hole and no pin a pattern.** -/
theorem round_trip_iff (hkeys : (Json.Tree.obj claims : Value).keysNodup = true)
    (hvalid : validateObject claims = .ok ()) :
    RoundTrip claims ↔ wholeArrays claims = true ∧ pinsFree claims = true := by
  constructor
  · intro hround
    obtain ⟨text, read, htext, hread, hback⟩ := hround
    have hnodup := keysNodup_parseJson hread
    have hwhole := wholeArrays_of_givesBack hkeys htext (readable_parseJson hread) hnodup
      ((givesBack_iff hnodup (set_of_valid hvalid)).mp hback)
    exact ⟨hwhole, pinsFree_of_round_trip hkeys (validClaims_of hvalid hwhole) ⟨text, read, htext, hread, hback⟩⟩
  · rintro ⟨hwhole, hfree⟩
    exact round_trip_of_free hkeys (validClaims_of hvalid hwhole) hfree

end RoundTrip

/-- Claims with one pin. -/
def samplePinned (pin : Value) : Object :=
  [(lit "iss", .str (lit "agent")), (lit "sub", .str (lit "server")),
    (lit "capabilities", .arr [.str (lit "mail:send")]),
    (lit "constraints", .obj [(lit "allowed_params", .obj [(lit "to", pin)])]),
    (lit "iat", .scalar (.number (.ofInt 1000))), (lit "exp", .scalar (.number (.ofInt 1010))),
    (lit "jti", .str (lit "one"))]

theorem round_trip_iff_sample : RoundTrip (samplePinned (.str (lit "$bob"))) :=
  (round_trip_iff (by decide +kernel) (by decide +kernel)).mpr (by decide +kernel)

/-- Two dollar signs are accepted, and read as one. -/
theorem round_trip_loses_dollar :
    (Json.Tree.obj (samplePinned (.str (lit "$$"))) : Value).keysNodup = true ∧
      validateObject (samplePinned (.str (lit "$$"))) = .ok () ∧
        ¬ RoundTrip (samplePinned (.str (lit "$$"))) := by
  have hkeys : (Json.Tree.obj (samplePinned (.str (lit "$$"))) : Value).keysNodup = true := by
    decide +kernel
  have hvalid : validateObject (samplePinned (.str (lit "$$"))) = .ok () := by decide +kernel
  have hwhole : wholeArrays (samplePinned (.str (lit "$$"))) = true := by decide +kernel
  refine ⟨hkeys, hvalid, fun hround => ?_⟩
  exact absurd (pinsFree_of_round_trip hkeys (validClaims_of hvalid hwhole) hround) (by decide +kernel)

/-- An array with a hole is accepted, and its text is no JSON. -/
example : validateObject (samplePinned (.arr [Value.hole, number 1])) = .ok () ∧
    ((claimsWire (withDefaults (samplePinned (.arr [Value.hole, number 1])))).toOption.bind
      parseJson).isNone =
      true := by decide +kernel

end SwarmAuth.Node
