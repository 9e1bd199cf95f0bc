import SwarmAuth.Node.RoundTrip

/-!
# Values that are read alike

What is signed and read back has its members sorted and has lost the sign of a zero. The
validator does not see the difference: it decides alike on alike values.

## Main definitions

* `Alike` — values with one view.
* `Alike.congr`, `Alike.get` — functions of a value, and its members.
* `validateConstraints_alike`, `validateObject_alike` — the validator on alike objects.
-/
namespace SwarmAuth.Node

open Js Interop

/-- Values that look the same, without repeated keys, and absent together. -/
structure Alike (a b : Value) : Prop where
  view : viewOf a = viewOf b
  absent : a = .undefined ↔ b = .undefined
  left : a.keysNodup = true
  right : b.keysNodup = true

theorem str_of_view {s : Units} {b : Value} (h : viewOf (.str s) = viewOf b) : b = .str s := by
  rw [viewOf, viewOf, Json.Tree.view_str] at h
  cases b with
  | str t => exact congrArg _ (Json.Tree.str.inj h).symm
  | scalar w => cases h
  | arr items => rw [Json.Tree.view_arr] at h; cases h
  | obj members => rw [Json.Tree.view_obj] at h; cases h

/-- Strings are read to themselves. -/
theorem strings_of_view {xs ys : List Value}
    (h : List.Forall₂ (fun x y => viewOf x = viewOf y) xs ys)
    (hxs : ∀ x ∈ xs, nonEmptyString x = true) : ys = xs := by
  induction h with
  | nil => rfl
  | @cons x y xs ys hview _ ih =>
      have hx := hxs x List.mem_cons_self
      cases x with
      | str s => rw [str_of_view hview, ih fun x hx => hxs x (List.mem_cons_of_mem _ hx)]
      | _ => cases hx

namespace Alike
variable {a b : Value}

theorem refl {a : Value} (h : a.keysNodup = true) : Alike a a := ⟨rfl, Iff.rfl, h, h⟩

theorem symm (h : Alike a b) : Alike b a := ⟨h.view.symm, h.absent.symm, h.right, h.left⟩

/-- Alike numbers are one number. -/
theorem number {d : Double} (h : Alike (.scalar (.number d)) b) :
    ∃ e, b = .scalar (.number e) ∧ d.value? = e.value? := by
  have hview := h.view
  rw [viewOf, viewOf, Json.Tree.view_scalar] at hview
  cases b with
  | scalar w =>
      rw [Json.Tree.view_scalar, Json.Tree.scalar.injEq] at hview
      cases w with
      | number e => exact ⟨e, rfl, Exact.number.inj hview⟩
      | _ => cases hview
  | str s => cases hview
  | arr items => rw [Json.Tree.view_arr] at hview; cases hview
  | obj members => rw [Json.Tree.view_obj] at hview; cases hview

theorem str {s : Units} (h : Alike (.str s) b) : b = .str s := str_of_view h.view

theorem arr {xs : List Value} (h : Alike (.arr xs) b) :
    ∃ ys, b = .arr ys ∧ List.Forall₂ (fun x y => viewOf x = viewOf y) xs ys := by
  have hview := h.view
  rw [viewOf, viewOf, Json.Tree.view_arr] at hview
  cases b with
  | arr ys =>
      rw [Json.Tree.view_arr, Json.Tree.arr.injEq] at hview
      refine ⟨ys, rfl, ?_⟩
      rw [← List.forall₂_eq_eq_eq, List.forall₂_map_left_iff, List.forall₂_map_right_iff] at hview
      exact hview
  | scalar w => cases hview
  | str s => cases hview
  | obj members => rw [Json.Tree.view_obj] at hview; cases hview

theorem obj {ms : Object} (h : Alike (.obj ms) b) : ∃ ns, b = .obj ns := by
  have hview := h.view
  rw [viewOf, viewOf, Json.Tree.view_obj] at hview
  cases b with
  | obj ns => exact ⟨ns, rfl⟩
  | scalar w => cases hview
  | str s => cases hview
  | arr items => rw [Json.Tree.view_arr] at hview; cases hview

/-- **What is the same of one number, of arrays and of objects is the same of alike values.** -/
theorem congr {β : Type} {f : Value → β} (h : Alike a b)
    (hnumber : ∀ d e : Double, d.value? = e.value? →
      f (.scalar (.number d)) = f (.scalar (.number e)))
    (harr : ∀ xs ys, List.Forall₂ (fun x y => viewOf x = viewOf y) xs ys → f (.arr xs) = f (.arr ys))
    (hobj : ∀ ms ns, Alike (.obj ms) (.obj ns) → f (.obj ms) = f (.obj ns)) : f a = f b := by
  cases a with
  | scalar w =>
      cases w with
      | number d =>
          obtain ⟨e, rfl, hvalue⟩ := h.number
          exact hnumber d e hvalue
      | undefined => rw [h.absent.mp rfl]
      | _ =>
          have hview := h.view
          have habsent := h.absent
          rw [viewOf, viewOf, Json.Tree.view_scalar] at hview
          cases b with
          | scalar w' =>
              rw [Json.Tree.view_scalar, Json.Tree.scalar.injEq] at hview
              cases w' with
              | undefined => exact absurd (habsent.mpr rfl) (by simp)
              | _ => simp_all [Exact.ofJs]
          | str s => cases hview
          | arr items => rw [Json.Tree.view_arr] at hview; cases hview
          | obj members => rw [Json.Tree.view_obj] at hview; cases hview
  | str s => rw [h.str]
  | arr xs =>
      obtain ⟨ys, rfl, hitems⟩ := h.arr
      exact harr xs ys hitems
  | obj ms =>
      obtain ⟨ns, rfl⟩ := h.obj
      exact hobj ms ns h

/-! ## Members -/

/-- A member of one has a member of the other that is alike. -/
theorem lookup {ms ns : Object} (h : Alike (.obj ms) (.obj ns)) {key : Units} {v : Value}
    (hv : ms.lookup key = some v) : ∃ u, ns.lookup key = some u ∧ viewOf v = viewOf u ∧
      v.keysNodup = true ∧ u.keysNodup = true := by
  have hms := keys_nodup h.left
  have hns := keys_nodup h.right
  have hmem : (key, viewOf v) ∈ Json.Tree.viewMembers Exact.ofJs id codePoints ms :=
    (Json.Tree.lookup_view_iff Function.injective_id hms).mp ⟨v, hv, rfl⟩
  obtain ⟨u, hu, hview⟩ := (Json.Tree.lookup_view_iff Function.injective_id hns).mpr
    ((Json.Tree.mem_viewMembers_iff h.view _).mp hmem)
  refine ⟨u, hu, hview.symm, ?_, ?_⟩
  · exact keysNodup_member h.left (m := (key, v)) ((Json.Tree.lookup_eq_some_iff hms).mp hv)
  · exact keysNodup_member h.right (m := (key, u)) ((Json.Tree.lookup_eq_some_iff hns).mp hu)

theorem lookup_none {ms ns : Object} (h : Alike (.obj ms) (.obj ns)) {key : Units}
    (hv : ms.lookup key = none) : ns.lookup key = none := by
  cases hu : ns.lookup key with
  | none => rfl
  | some u =>
      obtain ⟨v, hv', -⟩ := h.symm.lookup hu
      rw [hv] at hv'
      cases hv'

theorem hasOwn {ms ns : Object} (h : Alike (.obj ms) (.obj ns)) (key : Units) :
    Object.hasOwn ms key = Object.hasOwn ns key := by
  rw [Object.hasOwn, Object.hasOwn]
  cases hv : ms.lookup key with
  | none => rw [h.lookup_none hv]
  | some v =>
      obtain ⟨u, hu, -⟩ := h.lookup hv
      rw [hu]
      rfl

/-- **A member is alike**, or absent from both. -/
theorem get {ms ns : Object} (h : Alike (.obj ms) (.obj ns))
    (hp : (Json.Tree.obj ms : Value).allScalars portable = true) (key : Units) :
    Alike (Object.get ms key) (Object.get ns key) := by
  rw [Object.get, Object.get]
  cases hv : ms.lookup key with
  | none =>
      rw [h.lookup_none hv]
      exact refl rfl
  | some v =>
      obtain ⟨u, hu, hview, hleft, hright⟩ := h.lookup hv
      have hplain : v.allScalars portable = true := allScalars_member hp (m := (key, v))
        ((Json.Tree.lookup_eq_some_iff (keys_nodup h.left)).mp hv)
      rw [hu]
      refine ⟨hview, ⟨fun hnone => ?_, fun hnone => ?_⟩, hleft, hright⟩
      · rw [Option.getD_some] at hnone
        rw [hnone] at hplain
        cases hplain
      · rw [Option.getD_some] at hnone
        rw [hnone, viewOf, viewOf, Json.Tree.view_scalar] at hview
        cases v with
        | scalar w =>
            rw [Json.Tree.view_scalar, Json.Tree.scalar.injEq] at hview
            cases w <;> cases hview <;> cases hplain
        | str s => cases hview
        | arr items => rw [Json.Tree.view_arr] at hview; cases hview
        | obj members => rw [Json.Tree.view_obj] at hview; cases hview

theorem objectOr (h : Alike a b) : Alike (.obj (Node.objectOr a)) (.obj (Node.objectOr b)) := by
  cases a with
  | obj ms =>
      obtain ⟨ns, rfl⟩ := h.obj
      exact h
  | _ =>
      cases b with
      | obj ns =>
          obtain ⟨ms, hms⟩ := h.symm.obj
          cases hms
      | _ => exact refl rfl

/-! ## The checks of a value -/

theorem isNullish (h : Alike a b) : a.isNullish = b.isNullish :=
  h.congr (fun _ _ _ => rfl) (fun _ _ _ => rfl) fun _ _ _ => rfl

theorem isObject (h : Alike a b) : Node.isObject a = Node.isObject b :=
  h.congr (fun _ _ _ => rfl) (fun _ _ _ => rfl) fun _ _ _ => rfl

theorem stringOf (h : Alike a b) : Node.stringOf a = Node.stringOf b :=
  h.congr (fun _ _ _ => rfl) (fun _ _ _ => rfl) fun _ _ _ => rfl

theorem nonEmptyString (h : Alike a b) : Node.nonEmptyString a = Node.nonEmptyString b :=
  h.congr (fun _ _ _ => rfl) (fun _ _ _ => rfl) fun _ _ _ => rfl

theorem isCurrency (h : Alike a b) : Node.isCurrency a = Node.isCurrency b :=
  h.congr (fun _ _ _ => rfl) (fun _ _ _ => rfl) fun _ _ _ => rfl

theorem safeInteger (h : Alike a b) : Node.safeInteger a = Node.safeInteger b := by
  refine h.congr (fun d e hvalue => ?_) (fun _ _ _ => rfl) fun _ _ _ => rfl
  rw [Node.safeInteger, Node.safeInteger, isSafeInteger, isSafeInteger, hvalue]

end Alike

/-- Finite numbers of one value are compared alike. -/
theorem denote_eq {d e : Double} (h : d.value? = e.value?) (hd : isFinite d = true) :
    d.denote = e.denote := by
  have he : isFinite e = true := by rwa [isFinite_eq, ← h, ← isFinite_eq]
  cases d with
  | finite neg mag =>
      cases e with
      | finite neg' mag' =>
          rw [Double.value?, Double.value?, Option.some.injEq] at h
          rw [Double.denote, Double.denote, h]
      | _ => cases he
  | _ => cases hd

theorem lessThan_congr {d d' e e' : Double} (hd : d.denote = d'.denote) (he : e.denote = e'.denote) :
    lessThan d e = lessThan d' e' := by
  rw [lessThan, lessThan, hd, he]

theorem finite_of_safe {d : Double} (h : Node.safeInteger (.scalar (.number d)) = true) :
    isFinite d = true :=
  isFinite_of_isSafeInteger h

namespace Alike
variable {a b a' b' : Value}

theorem numberLt (ha : Alike a a') (hb : Alike b b') (hsa : Node.safeInteger a = true)
    (hsb : Node.safeInteger b = true) : Node.numberLt a b = Node.numberLt a' b' := by
  have hnumber : ∀ {v : Value}, Node.safeInteger v = true → ∃ d, v = .scalar (.number d) := by
    intro v hv
    cases v with
    | scalar w =>
        cases w with
        | number d => exact ⟨d, rfl⟩
        | _ => cases hv
    | _ => cases hv
  obtain ⟨d, rfl⟩ := hnumber hsa
  obtain ⟨e, rfl⟩ := hnumber hsb
  obtain ⟨d', rfl, hd⟩ := ha.number
  obtain ⟨e', rfl, he⟩ := hb.number
  exact lessThan_congr (denote_eq hd (finite_of_safe hsa)) (denote_eq he (finite_of_safe hsb))

theorem validCount (h : Alike a b) : Node.validCount a = Node.validCount b := by
  refine h.congr (fun d e hvalue => ?_) (fun _ _ _ => rfl) fun _ _ _ => rfl
  have hsafe : Node.safeInteger (.scalar (.number d)) = Node.safeInteger (.scalar (.number e)) := by
    rw [Node.safeInteger, Node.safeInteger, isSafeInteger, isSafeInteger, hvalue]
  rw [Node.validCount, Node.validCount, ← hsafe]
  refine congrArg₂ (· || ·) rfl ?_
  cases hd : Node.safeInteger (.scalar (.number d)) with
  | false => rfl
  | true =>
      rw [Bool.true_and, Bool.true_and]
      exact congrArg Bool.not (lessThan_congr (denote_eq hvalue (finite_of_safe hd)) rfl)

theorem validAmount (h : Alike a b) : Node.validAmount a = Node.validAmount b := by
  refine h.congr (fun d e hvalue => ?_) (fun _ _ _ => rfl) fun _ _ _ => rfl
  have hfinite : isFinite d = isFinite e := by rw [isFinite_eq, isFinite_eq, hvalue]
  rw [Node.validAmount, Node.validAmount]
  refine congrArg₂ (· || ·) rfl ?_
  simp only [← hfinite]
  cases hd : isFinite d with
  | false => rfl
  | true =>
      rw [Bool.true_and, Bool.true_and]
      exact congrArg Bool.not (lessThan_congr (denote_eq hvalue hd) rfl)

end Alike

/-- `validJson` of a scalar, by its exact value. -/
def validExact : Exact → Bool
  | .null | .bool _ | .hole => true
  | .number q => q.any fun q => q.den ≠ 1 || |q| ≤ 2 ^ 53 - 1
  | .foreign => false

theorem validExact_ofJs (w : Scalar) : validExact (Exact.ofJs w) = validScalar w := by
  cases w with
  | number d =>
      rw [Exact.ofJs, validExact, validScalar, isFinite_eq, isInteger, isSafeInteger]
      cases hd : d.value? with
      | none => rfl
      | some q => by_cases hq : q.den = 1 <;> simp [hq]
  | _ => rfl

theorem validJson_eq_view (v : Value) : validJson v = (viewOf v).allScalars validExact := by
  rw [viewOf, Json.Tree.allScalars_view, validJson]
  simp only [validExact_ofJs]

theorem Alike.validJson {a b : Value} (h : Alike a b) : Node.validJson a = Node.validJson b := by
  rw [validJson_eq_view, validJson_eq_view, h.view]

/-! ## The validator -/

section Objects
variable {o child : Object}

theorem Alike.onlyKeys (h : Alike (.obj o) (.obj child)) (names : List Units) :
    Node.onlyKeys o names = Node.onlyKeys child names := by
  rw [Bool.eq_iff_iff, onlyKeys_iff_subset, onlyKeys_iff_subset]
  simp only [List.subset_def, ← hasOwn_iff, h.hasOwn]

theorem portable_get (h : (Json.Tree.obj o : Value).allScalars portable = true) (key : Units) :
    (Json.Tree.obj (objectOr (o.get key)) : Value).allScalars portable = true := by
  rw [Object.get]
  cases hv : o.lookup key with
  | none => rfl
  | some v =>
      obtain ⟨front, back, ho, -⟩ := List.lookup_eq_some_iff.mp hv
      have hplain : v.allScalars portable = true :=
        allScalars_member h (m := (key, v)) (by rw [ho]; simp)
      rw [Option.getD_some]
      cases v with
      | obj ms => exact hplain
      | _ => rfl

theorem portable_or_undefined (h : (Json.Tree.obj o : Value).allScalars portable = true) (key : Units) :
    (o.get key).allScalars portable = true ∨ o.get key = .undefined := by
  rw [Object.get]
  cases hv : o.lookup key with
  | none => exact Or.inr rfl
  | some v =>
      obtain ⟨front, back, ho, -⟩ := List.lookup_eq_some_iff.mp hv
      exact Or.inl (allScalars_member h (m := (key, v)) (by rw [ho]; simp))

theorem budgetPins_alike {budget budget' : Value} {pins pins' : Object} (hb : Alike budget budget')
    (h : Alike (.obj pins) (.obj pins'))
    (hp : (Json.Tree.obj pins : Value).allScalars portable = true)
    (hpins : budgetPins budget pins = true) : budgetPins budget' pins' = true := by
  simp only [budgetPins, Bool.and_eq_true, decide_eq_true_eq, Bool.not_eq_true'] at hpins ⊢
  obtain ⟨⟨⟨⟨hstring, hid⟩, hsafe⟩, hsign⟩, hcurrency⟩ := hpins
  have hamount := h.get hp "amount_minor"
  have hzero : Node.safeInteger (Node.number 0) = true := by decide +kernel
  refine ⟨⟨⟨⟨hb.nonEmptyString.symm.trans hstring, ?_⟩, hamount.safeInteger.symm.trans hsafe⟩, ?_⟩,
    (h.get hp "currency").isCurrency.symm.trans hcurrency⟩
  · cases budget with
    | str s =>
        have hpin := h.get hp "budget_id"
        rw [hid] at hpin
        rw [hpin.str, hb.str]
    | _ => cases hstring
  · rw [← hamount.numberLt (Alike.refl rfl) hsafe hzero]
    exact hsign

/-- **Alike constraints are valid together.** -/
theorem validateConstraints_alike (h : Alike (.obj o) (.obj child))
    (hp : (Json.Tree.obj o : Value).allScalars portable = true)
    (hvalid : validateConstraints o = .ok ()) : validateConstraints child = .ok () := by
  simp only [validateConstraints, raiseIf_bind_eq_ok, raiseIf_eq_ok] at hvalid ⊢
  have hpins := h.get hp "allowed_params"
  have hbudget := h.get hp "shared_budget"
  rw [← h.onlyKeys, ← (h.get hp "max_calls").validCount, ← (h.get hp "rate_limit_per_min").validCount,
    ← (h.get hp "max_amount_usd").validAmount, ← h.hasOwn, ← hpins.isObject, ← hpins.validJson,
    ← hbudget.isNullish]
  obtain ⟨hkeys, hcalls, hrate, hamount, hallowed, hshared⟩ := hvalid
  refine ⟨hkeys, hcalls, hrate, hamount, hallowed, fun hbad => hshared ?_⟩
  rw [Bool.and_eq_true, Bool.not_eq_true'] at hbad ⊢
  refine ⟨hbad.1, ?_⟩
  rw [Bool.not_eq_true']
  by_contra hgood
  rw [Bool.not_eq_false] at hgood
  rw [budgetPins_alike hbudget hpins.objectOr (portable_get hp _) hgood] at hbad
  cases hbad.2

theorem validFields_alike (h : Alike (.obj o) (.obj child))
    (hp : (Json.Tree.obj o : Value).allScalars portable = true) (hvalid : validFields o = true) :
    validFields child = true := by
  simp only [validFields, Bool.and_eq_true] at hvalid ⊢
  obtain ⟨⟨⟨⟨⟨⟨⟨hkeys, hiss⟩, hsub⟩, hjti⟩, hcapabilities⟩, hiat⟩, hexp⟩, hlt⟩ := hvalid
  have hstring : ∀ {key : Units}, nonEmptyString (o.get key) = true →
      nonEmptyString (child.get key) = true := fun hs => (h.get hp _).nonEmptyString.symm.trans hs
  have hsafe : ∀ {key : Units}, safeInteger (o.get key) = true →
      safeInteger (child.get key) = true := fun hs => (h.get hp _).safeInteger.symm.trans hs
  refine ⟨⟨⟨⟨⟨⟨⟨?_, hstring hiss⟩, hstring hsub⟩, hstring hjti⟩, ?_⟩, hsafe hiat⟩, hsafe hexp⟩, ?_⟩
  · rwa [← h.onlyKeys]
  · have halike := h.get hp "capabilities"
    generalize hv : o.get "capabilities" = v at halike hcapabilities
    cases v with
    | arr items =>
        obtain ⟨ys, hys, hitems⟩ := halike.arr
        have hwhole := whole_of_portable ((portable_or_undefined hp "capabilities").resolve_right
          (by rw [hv]; simp))
        rw [hv] at hwhole
        have hstrings := strings_of_valid (Bool.and_eq_true_iff.mp hcapabilities).2 hwhole
        rw [hys, strings_of_view hitems hstrings]
        exact hcapabilities
    | _ => cases hcapabilities
  · rwa [← (h.get hp "iat").numberLt (h.get hp "exp") hiat hexp]

/-- **Alike claims are valid together.** -/
theorem validateObject_alike (h : Alike (.obj o) (.obj child))
    (hp : (Json.Tree.obj o : Value).allScalars portable = true)
    (hvalid : validateObject o = .ok ()) : validateObject child = .ok () := by
  simp only [validateObject, raiseIf_bind_eq_ok, Bool.not_eq_true', Bool.not_eq_false] at hvalid ⊢
  obtain ⟨hfields, hdlg, hprf, hconstraints⟩ := hvalid
  refine ⟨validFields_alike h hp hfields, ?_, ?_, ?_⟩
  · rwa [← (h.get hp "dlg").isNullish, ← (h.get hp "dlg").nonEmptyString]
  · rwa [← (h.get hp "prf").isNullish, ← (h.get hp "prf").nonEmptyString]
  · have halike := h.get hp "constraints"
    have hplain := portable_get hp "constraints"
    generalize o.get "constraints" = v at halike hconstraints hplain
    cases v with
    | obj limits =>
        obtain ⟨limits', hlimits⟩ := halike.obj
        rw [hlimits] at halike ⊢
        exact validateConstraints_alike halike hplain hconstraints
    | scalar w =>
        cases w with
        | undefined =>
            rw [halike.absent.mp rfl]
            exact hconstraints
        | _ => cases hconstraints
    | _ => cases hconstraints

end Objects

end SwarmAuth.Node
