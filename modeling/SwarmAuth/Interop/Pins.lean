import SwarmAuth.Python.Attenuation
import SwarmAuth.Node.Token
import SwarmAuth.Go.Marshal
import SwarmAuth.Go.Token

/-!
# Pins in three SDKs

Python compares pins by key sets and members, Node by lengths and members, Go by encoding
and decoding one side and comparing rationals. All three decide whether the exact values
are the same: numbers by value, strings by their code points, objects as maps.

## Main definitions

* `Exact` — a scalar by exact value.
* `pythonView`, `nodeView`, `goView` — the exact value of each SDK's values.
* `python_compares`, `node_compares`, `go_compares` — the three comparisons.
* `pins_iff`, `keepsPin_iff`, `checkPins_iff` — a child that keeps its parent's pins.
-/
namespace SwarmAuth.Interop

/-- A scalar by exact value; `none` is a number that is not finite, `foreign` and a `hole` are no
JSON. -/
inductive Exact where
  | null
  | bool (b : Bool)
  | number (q : Option ℚ)
  | foreign
  | hole
  deriving DecidableEq

/-- JSON has the scalar. -/
def Exact.plain : Exact → Bool
  | .number q => q.isSome
  | .foreign | .hole => false
  | _ => true

/-- What a scalar of Python denotes. -/
def Exact.ofPython : Python.Scalar → Exact
  | .none => .null
  | .bool b => .bool b
  | .int n => .number (some n)
  | .float d => .number d.value?

/-- What a scalar of JavaScript denotes. -/
def Exact.ofJs : Js.Scalar → Exact
  | .null => .null
  | .bool b => .bool b
  | .number d => .number d.value?
  | .undefined | .other => .foreign
  | .hole => .hole

/-- What a scalar of Go denotes. -/
def Exact.ofGo : Go.Scalar → Exact
  | .nil => .null
  | .bool b => .bool b
  | .number text => .number (Go.rational (.scalar (.number text)))

/-- The exact value of a value of Python. -/
def pythonView (v : Python.Value) : Json.Tree Exact Bytes :=
  v.view Exact.ofPython octets (List.map UInt8.toNat)

/-- The exact value of a value of JavaScript. -/
def nodeView (v : Js.Value) : Json.Tree Exact Bytes :=
  v.view Exact.ofJs octets (List.map UInt8.toNat)

/-- The exact value of a value of Go. -/
def goView (v : Go.Value) : Json.Tree Exact Bytes := v.view Exact.ofGo id (List.map UInt8.toNat)

theorem rank_injective : Function.Injective (List.map UInt8.toNat) :=
  List.map_injective_iff.mpr fun _ _ => UInt8.toNat_inj.mp

theorem plain_view {W S : Type} {f : W → Exact} {g : S → Bytes} (t : Json.Tree W S) :
    (t.view f g (List.map UInt8.toNat)).allScalars Exact.plain = t.allScalars fun w => (f w).plain :=
  Json.Tree.allScalars_view f g _ Exact.plain t

/-! ## The three comparisons -/

/-- Numbers that denote a rational are equal when their values are. -/
theorem denote_eq_iff {a b : Double} (ha : a.value?.isSome = true) :
    (a.denote = b.denote ∧ a.denote.isSome = true) ↔ a.value? = b.value? := by
  cases a with
  | finite neg mag => cases b <;> simp [Double.denote, Double.value?]
  | inf neg => cases ha
  | nan => cases ha

theorem python_compares : Json.Tree.Compares Python.jsonValueEqual
    (fun s => (Exact.ofPython s).plain) Exact.ofPython where
  scalar a t ha := by
    cases t with
    | scalar b =>
        simp only [Python.jsonValueEqual, Json.Tree.scalar.injEq, exists_eq_left']
        cases a with
        | float d =>
            have hd : d.value?.isSome = true := ha
            cases b with
            | int n =>
                cases d with
                | finite neg mag =>
                    simp [Python.scalarEqual, Python.Scalar.denote, Exact.ofPython, Double.denote,
                      Double.value?]
                | inf neg => cases hd
                | nan => cases hd
            | float e =>
                rw [Python.scalarEqual, Bool.and_eq_true, decide_eq_true_eq]
                · simpa only [Exact.ofPython, Exact.number.injEq, Python.Scalar.denote] using
                    denote_eq_iff (b := e) hd
                all_goals simp
            | none => simp [Python.scalarEqual, Exact.ofPython]
            | bool b => simp [Python.scalarEqual, Exact.ofPython]
        | int n =>
            cases b with
            | float e =>
                cases e <;> simp [Python.scalarEqual, Python.Scalar.denote, Exact.ofPython,
                  Double.denote, Double.value?]
            | _ => simp [Python.scalarEqual, Python.Scalar.denote, Exact.ofPython]
        | none => cases b <;> simp [Python.scalarEqual, Exact.ofPython]
        | bool b' => cases b <;> simp [Python.scalarEqual, Exact.ofPython]
    | _ => simp [Python.jsonValueEqual]
  str s t := by cases t <;> simp [Python.jsonValueEqual, eq_comm]
  arr xs t _ := by cases t <;> simp [Python.jsonValueEqual, Python.itemsEqual_iff]
  obj ms t hms hns := by
    cases t with
    | obj ns =>
        have hns := hns ns rfl
        rw [Python.jsonValueEqual_obj]
        simp only [Json.Tree.obj.injEq, exists_eq_left']
        refine and_congr_left fun hmembers => ?_
        have hsub : ms.map Prod.fst ⊆ ns.map Prod.fst := by
          intro k hk
          obtain ⟨m, hm, rfl⟩ := List.mem_map.mp hk
          obtain ⟨b, hb, -⟩ := hmembers m hm
          exact List.mem_map.mpr ⟨_, Python.Dict.mem_of_get? hb, rfl⟩
        have hperm := List.subperm_of_subset hms hsub
        constructor
        · intro hback
          have hsub' : ns.map Prod.fst ⊆ ms.map Prod.fst := by
            intro k hk
            obtain ⟨n, hn, rfl⟩ := List.mem_map.mp hk
            exact hback n hn
          have hlen := (List.subperm_of_subset hns hsub').length_le.antisymm hperm.length_le
          rwa [List.length_map, List.length_map, eq_comm] at hlen
        · intro hlen m hm
          have hperm' := hperm.perm_of_length_le (by rw [List.length_map, List.length_map, hlen])
          exact hperm'.mem_iff.mpr (List.mem_map_of_mem hm)
    | _ => simp [Python.jsonValueEqual]

theorem jsonEqual_element {a b : Js.Value} (ha : a ≠ .undefined) :
    Node.jsonEqual a b.element = Node.jsonEqual a b := by
  cases b with
  | scalar w =>
      cases w with
      | hole =>
          cases a with
          | scalar v => cases v <;> first | rfl | exact absurd rfl ha
          | _ => rfl
      | _ => rfl
  | _ => rfl

theorem jsonEqualItems_iff {left right : List Js.Value}
    (hleft : ∀ a ∈ left, a ≠ .hole ∧ a ≠ .undefined) :
    (left.length = right.length ∧ Node.jsonEqualItems left right = true) ↔
      List.Forall₂ (fun a b => Node.jsonEqual a b = true) left right := by
  induction left generalizing right with
  | nil => cases right <;> simp [Node.jsonEqualItems]
  | cons a left ih =>
      rw [List.forall_mem_cons] at hleft
      cases right with
      | nil => simp
      | cons b right =>
          rw [List.forall₂_cons, ← ih hleft.2, Node.jsonEqualItems, Bool.and_eq_true, List.length_cons,
            List.length_cons, Nat.add_right_cancel_iff, decide_eq_false hleft.1.1, Bool.false_or,
            jsonEqual_element hleft.1.2]
          exact and_left_comm

theorem jsonEqualMembers_iff {left right : Js.Object} :
    Node.jsonEqualMembers left right = true ↔
      ∀ m ∈ left, ∃ b, right.lookup m.1 = some b ∧ Node.jsonEqual m.2 b = true := by
  induction left with
  | nil => simp [Node.jsonEqualMembers]
  | cons m left ih =>
      obtain ⟨k, a⟩ := m
      rw [Node.jsonEqualMembers, Bool.and_eq_true, ih, List.forall_mem_cons]
      refine and_congr_left fun _ => ?_
      cases right.lookup k <;> simp

theorem node_compares : Json.Tree.Compares Node.jsonEqual
    (fun s => (Exact.ofJs s).plain) Exact.ofJs where
  scalar a t ha := by
    cases t with
    | scalar b =>
        simp only [Node.jsonEqual, Json.Tree.scalar.injEq, exists_eq_left']
        cases a with
        | number d =>
            have hd : d.value?.isSome = true := ha
            cases b with
            | number e => simpa [Node.strictEqual, Exact.ofJs] using denote_eq_iff (b := e) hd
            | _ => simp [Node.strictEqual, Exact.ofJs]
        | undefined => exact nomatch ha
        | other => exact nomatch ha
        | hole => exact nomatch ha
        | _ => cases b <;> simp [Node.strictEqual, Exact.ofJs]
    | _ => simp [Node.jsonEqual]
  str s t := by cases t <;> simp [Node.jsonEqual, eq_comm]
  arr xs t hxs := by
    have hwhole : ∀ x ∈ xs, x ≠ Js.Value.hole ∧ x ≠ Js.Value.undefined := by
      refine fun x hx => ⟨?_, ?_⟩ <;> rintro rfl
      · exact nomatch hxs _ hx
      · exact nomatch hxs _ hx
    cases t with
    | arr ys =>
        rw [Node.jsonEqual, Bool.and_eq_true, decide_eq_true_eq, jsonEqualItems_iff hwhole]
        simp
    | _ => simp [Node.jsonEqual]
  obj ms t _ _ := by
    cases t with
    | obj ns =>
        rw [Node.jsonEqual, Bool.and_eq_true, decide_eq_true_eq, jsonEqualMembers_iff]
        simp
    | _ => simp [Node.jsonEqual]

theorem equalItems_iff {left right : List Go.Value} :
    (left.length = right.length ∧ Go.equalItems left right = true) ↔
      List.Forall₂ (fun a b => Go.equalJSON a b = true) left right := by
  induction left generalizing right with
  | nil => cases right <;> simp [Go.equalItems]
  | cons a left ih =>
      cases right with
      | nil => simp
      | cons b right =>
          rw [List.forall₂_cons, ← ih, Go.equalItems, Bool.and_eq_true, List.length_cons,
            List.length_cons, Nat.add_right_cancel_iff]
          exact and_left_comm

theorem equalMembers_iff {left right : Go.Map} :
    Go.equalMembers left right = true ↔
      ∀ m ∈ left, ∃ b, right.lookup m.1 = some b ∧ Go.equalJSON m.2 b = true := by
  induction left with
  | nil => simp [Go.equalMembers]
  | cons m left ih =>
      obtain ⟨k, a⟩ := m
      rw [Go.equalMembers, Bool.and_eq_true, ih, List.forall_mem_cons, Go.Map.get?]
      refine and_congr_left fun _ => ?_
      cases right.lookup k <;> simp

theorem go_compares : Json.Tree.Compares Go.equalJSON
    (fun s => (Exact.ofGo s).plain) Exact.ofGo where
  scalar a t ha := by
    cases t with
    | scalar b =>
        simp only [Json.Tree.scalar.injEq, exists_eq_left']
        cases a with
        | number text =>
            obtain ⟨x, hx⟩ := Option.isSome_iff_exists.mp (show (Go.rational _).isSome = true from ha)
            cases b with
            | number text' =>
                rw [Go.equalJSON, Go.equalNumber, Exact.ofGo, Exact.ofGo, hx]
                cases Go.rational (.scalar (.number text')) <;> simp
            | _ => simp [Go.equalJSON, Exact.ofGo]
        | _ => cases b <;> simp [Go.equalJSON, Exact.ofGo]
    | _ => cases a <;> simp [Go.equalJSON]
  str s t := by cases t <;> simp [Go.equalJSON, eq_comm]
  arr xs t _ := by
    cases t with
    | arr ys =>
        rw [Go.equalJSON, Bool.and_eq_true, decide_eq_true_eq, equalItems_iff]
        simp
    | _ => simp [Go.equalJSON]
  obj ms t _ _ := by
    cases t with
    | obj ns =>
        rw [Go.equalJSON, Bool.and_eq_true, decide_eq_true_eq, equalMembers_iff]
        simp
    | _ => simp [Go.equalJSON]

/-! ## The same pins -/

/-- Pins of the same exact value. -/
structure SamePins (p : Python.Dict) (n : Js.Object) (g : Go.Map) : Prop where
  node : nodeView (.obj n) = pythonView (.obj p)
  go : goView (.obj g) = pythonView (.obj p)

theorem plain_of_validScalar (s : Python.Scalar) (h : Python.validScalar s = true) :
    (Exact.ofPython s).plain = true := by
  cases s with
  | float d =>
      have hd : d.value?.any (fun q : ℚ => q.den ≠ 1 || |q| ≤ (Python.maxSafe : ℚ)) = true := h
      cases hv : d.value? with
      | none => rw [hv] at hd; exact nomatch hd
      | some q => simp [Exact.ofPython, Exact.plain, hv]
  | _ => rfl

section Constraints
variable (c : Python.Constraints)

theorem plain_pins : (Json.Tree.obj c.allowedParams : Python.Value).allScalars
    (fun s => (Exact.ofPython s).plain) = true := by
  have hv := c.valid
  simp only [Python.ConstraintFields.valid, Bool.and_eq_true] at hv
  refine Json.Tree.allScalars_mono plain_of_validScalar ?_
  rw [Json.Tree.allScalars_obj]
  exact hv.1.1.2

theorem keysNodup_pins : (Json.Tree.obj c.allowedParams : Python.Value).keysNodup = true := c.dictLike

end Constraints

section Same
variable {c : Python.Constraints} {n : Js.Object} {g : Go.Map} (h : SamePins c.allowedParams n g)
include h

theorem SamePins.node_plain : (Json.Tree.obj n : Js.Value).allScalars
    (fun s => (Exact.ofJs s).plain) = true := by
  rw [← plain_view (g := octets), ← nodeView, h.node, pythonView, plain_view]
  exact plain_pins c

theorem SamePins.node_keys : (Json.Tree.obj n : Js.Value).keysNodup = true := by
  have hview : (nodeView (.obj n)).keysNodup = (Json.Tree.obj n : Js.Value).keysNodup :=
    Json.Tree.keysNodup_view _ octets_injective _
  rw [← hview, h.node, pythonView, Json.Tree.keysNodup_view _ octets_injective]
  exact keysNodup_pins c

theorem SamePins.go_plain : (Json.Tree.obj g : Go.Value).allScalars
    (fun s => (Exact.ofGo s).plain) = true := by
  rw [← plain_view (g := id), ← goView, h.go, pythonView, plain_view]
  exact plain_pins c

end Same

section Members
variable {W S : Type} {p : W → Bool} {ms : List (S × Json.Tree W S)}

theorem allScalars_member (h : (Json.Tree.obj ms).allScalars p = true) {m : S × Json.Tree W S}
    (hm : m ∈ ms) : m.2.allScalars p = true := by
  rw [Json.Tree.allScalars_obj, List.all_eq_true] at h
  exact h m hm

theorem keys_nodup [DecidableEq S] (h : (Json.Tree.obj ms).keysNodup = true) :
    (ms.map Prod.fst).Nodup := by
  rw [Json.Tree.keysNodup_obj, Bool.and_eq_true, decide_eq_true_eq] at h
  exact h.1

theorem keysNodup_member [DecidableEq S] (h : (Json.Tree.obj ms).keysNodup = true)
    {m : S × Json.Tree W S} (hm : m ∈ ms) : m.2.keysNodup = true := by
  rw [Json.Tree.keysNodup_obj, Bool.and_eq_true, List.all_eq_true] at h
  exact h.2 m hm

end Members

/-- The members of Python's pins, seen by exact value. -/
def seenPins (d : Python.Dict) : List (Bytes × Json.Tree Exact Bytes) :=
  Json.Tree.viewMembers Exact.ofPython octets (List.map UInt8.toNat) d

/-- **Python keeps pins** when the members seen in the parent's are seen in the child's. -/
theorem pins_iff {parent child : Python.Constraints} :
    (∀ m ∈ parent.allowedParams, Python.pins child.allowedParams m.1 m.2 = true) ↔
      ∀ m ∈ seenPins parent.allowedParams, m ∈ seenPins child.allowedParams := by
  rw [seenPins, seenPins, Json.Tree.viewMembers, List.forall_mem_map]
  refine forall₂_congr fun m hm => ?_
  rw [Python.pins_iff, ← Json.Tree.lookup_view_iff octets_injective (keys_nodup (keysNodup_pins child))]
  refine exists_congr fun b => and_congr_right fun hb => ?_
  have hmem := Python.Dict.mem_of_get? hb
  exact python_compares.iff_view octets_injective rank_injective
    (allScalars_member (plain_pins child) hmem) (keysNodup_member (keysNodup_pins child) hmem)
    (keysNodup_member (keysNodup_pins parent) hm)

section Agree
variable {pp pc : Python.Constraints} {np nc : Js.Object} {gp gc : Go.Map}
  (hp : SamePins pp.allowedParams np gp) (hc : SamePins pc.allowedParams nc gc)
include hp hc

/-- **Node keeps the pins** that Python keeps. -/
theorem keepsPin_iff : (∀ m ∈ np, Node.keepsPin nc m.1 m.2 = true) ↔
    ∀ m ∈ pp.allowedParams, Python.pins pc.allowedParams m.1 m.2 = true := by
  have hkeeps : ∀ m ∈ np, Node.keepsPin nc m.1 m.2 = true ↔
      (octets m.1, nodeView m.2) ∈
        Json.Tree.viewMembers Exact.ofJs octets (List.map UInt8.toNat) nc := by
    intro m hm
    rw [← Json.Tree.lookup_view_iff octets_injective (keys_nodup hc.node_keys), Node.keepsPin]
    cases hb : nc.lookup m.1 with
    | none => simp
    | some b =>
        have hmem := (Json.Tree.lookup_eq_some_iff (keys_nodup hc.node_keys)).mp hb
        simp only [Option.some.injEq, exists_eq_left']
        exact node_compares.iff_view octets_injective rank_injective
          (allScalars_member hc.node_plain hmem) (keysNodup_member hc.node_keys hmem)
          (keysNodup_member hp.node_keys hm)
  have hparent := Json.Tree.mem_viewMembers_iff hp.node
  have hchild := Json.Tree.mem_viewMembers_iff hc.node
  rw [pins_iff, seenPins, seenPins]
  simp only [← hparent, ← hchild]
  rw [Json.Tree.viewMembers, List.forall_mem_map]
  exact forall₂_congr hkeeps

/-- **Go keeps the pins** that Python keeps. -/
theorem checkPins_iff (hgp : Go.Decoded (.obj gp)) (hgc : Go.Decoded (.obj gc)) :
    Go.checkPins gp (.ofMap gc) = .ok () ↔
      ∀ m ∈ pp.allowedParams, Python.pins pc.allowedParams m.1 m.2 = true := by
  obtain ⟨actual, hactual, hcanon⟩ := Go.object_marshal hgc
  have hview : goView (.obj actual) = goView (.obj gc) := by
    rw [hcanon, goView, goView, Json.Tree.view, Json.Tree.view, Json.Tree.mapStrs_id,
      Json.Tree.mapStrs_id, Json.Tree.canon_mapScalars, Json.Tree.canon_mapScalars,
      Json.Tree.canon_canon]
  have hkeys : (Json.Tree.obj actual : Go.Value).keysNodup = true := by
    rw [hcanon, Json.Tree.keysNodup_canon]
    exact hgc.keys
  have hparent := Json.Tree.mem_viewMembers_iff hp.go
  have hchild := Json.Tree.mem_viewMembers_iff (hview.trans hc.go)
  rw [Go.checkPins, Go.Params.ofMap, Go.Params.actual, hactual, bind_eq_ok]
  simp only [Except.ok.injEq, exists_eq_left']
  rw [forM_eq_ok, pins_iff, seenPins, seenPins]
  simp only [← hparent, ← hchild]
  rw [Json.Tree.viewMembers, List.forall_mem_map]
  refine forall₂_congr fun m hm => ?_
  have hlookup : _ ↔ (m.1, goView m.2) ∈
      Json.Tree.viewMembers Exact.ofGo id (List.map UInt8.toNat) actual :=
    Json.Tree.lookup_view_iff Function.injective_id (keys_nodup hkeys)
  refine Iff.trans ?_ hlookup
  rw [Go.Map.get?]
  cases hb : actual.lookup m.1 with
  | none => simp
  | some b =>
      have hmem := (Json.Tree.lookup_eq_some_iff (keys_nodup hkeys)).mp hb
      simp only [raiseIf_eq_ok, Bool.not_eq_true', Bool.not_eq_false, Option.some.injEq,
        exists_eq_left']
      rw [go_compares.iff_view Function.injective_id rank_injective
        (allScalars_member hp.go_plain hm) (keysNodup_member hgp.keys hm)
        (keysNodup_member hkeys hmem)]
      exact eq_comm

end Agree

end SwarmAuth.Interop
