import SwarmAuth.Js.Value

/-!
# Recursive encoders

Both SDKs write a value with one recursion: scalars and strings in their own ways, arrays
in order, objects by sorted keys. An encoder that writes every string unit by unit is the
rendering of the sorted value.

## Main definitions

* `encodeWith` — the recursion.
* `encodeWith_eq` — what it writes.
-/
namespace SwarmAuth.Js

section Encode
variable (scalar : Scalar → Outcome (List ℕ)) (string : Units → List ℕ)

/-- A member of an object, its value encoded. -/
def encodeMember (key : Units) (value : Outcome (List ℕ)) : Outcome (List ℕ) := do
  let text ← value
  return string key ++ 58 :: text

/-- Scalars and strings in the given way, arrays in order, objects by sorted keys. -/
def encodeWith : Value → Outcome (List ℕ) :=
  Json.Tree.fold scalar (fun s => .ok (string s))
    (fun items => do
      let parts ← items.mapM id
      return 91 :: [44].intercalate parts ++ [93])
    (fun members => do
      let parts ← (sortKeys members).mapM fun m => encodeMember string m.1 m.2
      return 123 :: [44].intercalate parts ++ [125])

@[simp] theorem encodeWith_scalar (w : Scalar) : encodeWith scalar string (.scalar w) = scalar w := rfl
@[simp] theorem encodeWith_str (s : Units) :
    encodeWith scalar string (.str s) = .ok (string s) := rfl
@[simp] theorem encodeWith_arr (ts : List Value) :
    encodeWith scalar string (.arr ts) = (do
      let parts ← ts.mapM (encodeWith scalar string)
      return 91 :: [44].intercalate parts ++ [93]) := by
  rw [encodeWith, Json.Tree.fold_arr, List.mapM_map]
  rfl
@[simp] theorem encodeWith_obj (ms : Object) :
    encodeWith scalar string (.obj ms) = (do
      let parts ← (sortKeys ms).mapM fun m => encodeMember string m.1 (encodeWith scalar string m.2)
      return 123 :: [44].intercalate parts ++ [125]) := by
  rw [encodeWith, Json.Tree.fold_obj, sortKeys_eq, sortKeys_eq, Json.Tree.sortMembers_map,
    List.mapM_map]
  rfl

end Encode

/-- A map that succeeds everywhere. -/
theorem mapM_ok {α β : Type} {f : α → Outcome β} {g : α → β} {l : List α}
    (h : ∀ a ∈ l, f a = .ok (g a)) : l.mapM f = .ok (l.map g) := by
  refine (mapM_eq_ok (P := fun _ => True) (g := g) ?_).mpr ⟨fun _ _ => trivial, rfl⟩
  intro a ha b
  rw [h a ha, Except.ok.injEq, true_and]
  exact eq_comm

/-- **What an encoder writes** is the rendering of the sorted value. -/
theorem encodeWith_eq {scalar : Scalar → Outcome (List ℕ)} {string : Units → List ℕ}
    (hscalar : ∀ w, portable w = true → scalar w = .ok (scalarText w))
    (hstring : ∀ s, string s = 34 :: s.flatMap Json.escapeUnit ++ [34]) {v : Value}
    (h : v.allScalars portable = true) :
    encodeWith scalar string v = .ok (Json.render scalarText (v.canon codePoints)) := by
  induction v using Json.Tree.ind with
  | scalar w => rw [encodeWith_scalar, hscalar w h, Json.Tree.canon_scalar, Json.render_scalar]
  | str s => rw [encodeWith_str, hstring, Json.Tree.canon_str, Json.render_str]
  | arr items ih =>
      rw [Json.Tree.allScalars_arr, List.all_eq_true] at h
      rw [encodeWith_arr, mapM_ok fun t ht => ih t ht (h t ht), Json.Tree.canon_arr,
        Json.render_arr, List.map_map]
      rfl
  | obj members ih =>
      rw [Json.Tree.allScalars_obj, List.all_eq_true] at h
      have hmember : ∀ m ∈ sortKeys members,
          encodeMember string m.1 (encodeWith scalar string m.2) =
            .ok (34 :: m.1.flatMap Json.escapeUnit ++ 34 :: 58 ::
              Json.render scalarText (m.2.canon codePoints)) := by
        intro m hm
        rw [sortKeys_eq, Json.Tree.mem_sortMembers] at hm
        rw [encodeMember, ih m hm (h m hm), hstring]
        simp [bind, Except.bind, pure, Except.pure]
      rw [encodeWith_obj, mapM_ok hmember, sortKeys_eq, Json.Tree.canon_obj,
        Json.Tree.sortMembers_map, Json.render_obj, List.map_map]
      rfl

/-- The scalars of a value that is encoded are encoded. -/
theorem allScalars_of_encodeWith {scalar : Scalar → Outcome (List ℕ)} {string : Units → List ℕ}
    {p : Scalar → Bool} (hscalar : ∀ w text, scalar w = .ok text → p w = true) {v : Value} {text : List ℕ}
    (h : encodeWith scalar string v = .ok text) : v.allScalars p = true := by
  have hmapM : ∀ {α : Type} {f : α → Outcome (List ℕ)} {l : List α} {out : List (List ℕ)},
      l.mapM f = .ok out → ∀ a ∈ l, ∃ t, f a = .ok t := by
    intro α f l
    induction l with
    | nil => simp
    | cons a l ih =>
        intro out hok b hb
        rw [List.mapM_cons] at hok
        obtain ⟨t, ht, hok⟩ := bind_eq_ok.mp hok
        obtain ⟨ts, hts, -⟩ := bind_eq_ok.mp hok
        rcases List.mem_cons.mp hb with rfl | hb
        · exact ⟨t, ht⟩
        · exact ih hts b hb
  induction v using Json.Tree.ind generalizing text with
  | scalar w => exact hscalar w text h
  | str s => rfl
  | arr items ih =>
      rw [encodeWith_arr] at h
      obtain ⟨parts, hparts, -⟩ := bind_eq_ok.mp h
      rw [Json.Tree.allScalars_arr, List.all_eq_true]
      intro t ht
      obtain ⟨text', ht'⟩ := hmapM hparts t ht
      exact ih t ht ht'
  | obj members ih =>
      rw [encodeWith_obj] at h
      obtain ⟨parts, hparts, -⟩ := bind_eq_ok.mp h
      rw [Json.Tree.allScalars_obj, List.all_eq_true]
      intro m hm
      obtain ⟨text', hmember⟩ := hmapM hparts m (by rwa [sortKeys_eq, Json.Tree.mem_sortMembers])
      obtain ⟨value, hvalue, -⟩ := bind_eq_ok.mp hmember
      exact ih m hm hvalue

end SwarmAuth.Js
