import SwarmAuth.Lib.JsonEquality

/-!
# JSON values part by part

A JSON value is what stands at each of its paths: a path takes items of arrays by position
and members of objects by key, so the order of members plays no part. Two values whose
objects have distinct keys are the same part by part exactly when they sort alike.

## Main definitions

* `Tree.look` — what stands at a path: a scalar, a string, an array or an object.
* `Tree.Same` — the same at every path.
* `Tree.same_iff_canon` — that is to sort alike.
-/
namespace SwarmAuth.Json.Tree
variable {W S K : Type}

/-- A step into an array or an object. -/
inductive Step (S : Type) where
  | item (i : ℕ)
  | key (k : S)

/-- What stands at a place, without its parts. -/
inductive Head (W S : Type) where
  | scalar (w : W)
  | str (s : S)
  | arr (length : ℕ)
  | obj (size : ℕ)

/-- What a value is, without its parts. -/
def head : Tree W S → Head W S
  | .scalar w => .scalar w
  | .str s => .str s
  | .arr ts => .arr ts.length
  | .obj ms => .obj ms.length

/-- The part of a value one step below. -/
def part [BEq S] : Tree W S → Step S → Option (Tree W S)
  | .arr ts, .item i => ts[i]?
  | .obj ms, .key k => ms.lookup k
  | _, _ => none

/-- What stands at a path. -/
def look [BEq S] : Tree W S → List (Step S) → Option (Head W S)
  | t, [] => some t.head
  | t, s :: path => (t.part s).bind fun u => look u path

/-- The same at every path. -/
def Same [BEq S] (a b : Tree W S) : Prop := ∀ path, a.look path = b.look path

theorem Same.head_eq [BEq S] {a b : Tree W S} (h : Same a b) : a.head = b.head :=
  Option.some.inj (h [])

/-- The parts of the same value are the same. -/
theorem Same.part [BEq S] {a b x : Tree W S} (h : Same a b) {s : Step S}
    (hx : a.part s = some x) : ∃ y, b.part s = some y ∧ Same x y := by
  have hpath : ∀ path, some x = a.part s → x.look path = (b.part s).bind fun u => u.look path := by
    intro path _
    have hlook := h (s :: path)
    rwa [look, look, hx, Option.bind_some] at hlook
  cases hy : b.part s with
  | none =>
      have hnone := hpath [] hx.symm
      rw [hy] at hnone
      exact absurd hnone (by simp [look])
  | some y =>
      refine ⟨y, rfl, fun path => ?_⟩
      rw [hpath path hx.symm, hy, Option.bind_some]

section Sorted
variable [DecidableEq S] [BEq S] [LawfulBEq S] [LinearOrder K] {rank : S → K}

omit [DecidableEq S] [BEq S] [LawfulBEq S] in
/-- Sorting keeps what a value is. -/
theorem head_canon (t : Tree W S) : (t.canon rank).head = t.head := by
  cases t with
  | scalar w => rfl
  | str s => rfl
  | arr ts => simp [head]
  | obj ms => simp [head, (sortMembers_perm rank _).length_eq]

omit [BEq S] [LawfulBEq S] in
theorem keys_nodup_of_obj {ms : List (S × Tree W S)} (h : (Tree.obj ms).keysNodup = true) :
    (ms.map Prod.fst).Nodup ∧ ∀ m ∈ ms, m.2.keysNodup = true := by
  rw [keysNodup_obj, Bool.and_eq_true, decide_eq_true_iff, List.all_eq_true] at h
  exact h

/-- The keys of an object's parts are distinct too. -/
theorem keysNodup_part {t u : Tree W S} {s : Step S} (ht : t.keysNodup = true)
    (hu : t.part s = some u) : u.keysNodup = true := by
  cases t with
  | scalar w => cases s <;> exact absurd hu (by simp [part])
  | str s' => cases s <;> exact absurd hu (by simp [part])
  | arr ts =>
      cases s with
      | item i =>
          rw [keysNodup_arr, List.all_eq_true] at ht
          exact ht u (List.mem_of_getElem? hu)
      | key k => exact absurd hu (by simp [part])
  | obj ms =>
      cases s with
      | item i => exact absurd hu (by simp [part])
      | key k =>
          obtain ⟨hkeys, hparts⟩ := keys_nodup_of_obj ht
          exact hparts _ ((lookup_eq_some_iff hkeys).mp hu)

/-- Sorting keeps the parts. -/
theorem part_canon {t : Tree W S} (ht : t.keysNodup = true) (s : Step S) :
    (t.canon rank).part s = (t.part s).map (canon rank) := by
  cases t with
  | scalar w => cases s <;> rfl
  | str s' => cases s <;> rfl
  | arr ts =>
      rw [canon_arr]
      cases s with
      | item i => exact List.getElem?_map ..
      | key k => rfl
  | obj ms =>
      cases s with
      | item i => rw [canon_obj]; rfl
      | key k =>
          have hkeys := (keys_nodup_of_obj ht).1
          have hmapped : ((ms.map fun m => (m.1, m.2.canon rank)).map Prod.fst).Nodup := by
            rwa [List.map_map]
          have hsorted : ((sortMembers rank (ms.map fun m => (m.1, m.2.canon rank))).map
              Prod.fst).Nodup :=
            ((sortMembers_perm rank _).map Prod.fst).nodup_iff.mpr hmapped
          rw [canon_obj]
          refine Option.ext fun u => ?_
          show List.lookup k _ = some u ↔ (List.lookup k ms).map (canon rank) = some u
          rw [lookup_eq_some_iff hsorted, mem_sortMembers, Option.map_eq_some_iff, List.mem_map]
          constructor
          · rintro ⟨m, hm, heq⟩
            obtain ⟨rfl, rfl⟩ := Prod.mk.inj heq
            exact ⟨m.2, (lookup_eq_some_iff hkeys).mpr hm, rfl⟩
          · rintro ⟨v, hv, rfl⟩
            exact ⟨(k, v), (lookup_eq_some_iff hkeys).mp hv, rfl⟩

/-- Sorting keeps what stands at a path. -/
theorem look_canon {t : Tree W S} (ht : t.keysNodup = true) (path : List (Step S)) :
    (t.canon rank).look path = t.look path := by
  induction path generalizing t with
  | nil => rw [look, look, head_canon]
  | cons s path ih =>
      rw [look, look, part_canon ht]
      cases hu : t.part s with
      | none => rfl
      | some u => exact ih (keysNodup_part ht hu)

/-- What is the same part by part sorts alike. -/
theorem Same.canon_eq (hrank : Function.Injective rank) {a b : Tree W S} (ha : a.keysNodup = true)
    (hb : b.keysNodup = true) (h : Same a b) : a.canon rank = b.canon rank := by
  induction a using Tree.ind generalizing b with
  | scalar w =>
      cases b <;> have hhead := h.head_eq <;> simp only [head, reduceCtorEq, Head.scalar.injEq] at hhead
      rw [hhead]
  | str s =>
      cases b <;> have hhead := h.head_eq <;> simp only [head, reduceCtorEq, Head.str.injEq] at hhead
      rw [hhead]
  | arr items ih =>
      cases b with
      | arr bs =>
          have hlen : items.length = bs.length := by simpa [head] using h.head_eq
          rw [keysNodup_arr, List.all_eq_true] at ha hb
          rw [canon_arr, canon_arr]
          congr 1
          refine List.ext_getElem (by simp [hlen]) fun i hi hi' => ?_
          rw [List.length_map] at hi hi'
          obtain ⟨y, hy, hsame⟩ := h.part (s := .item i) (List.getElem?_eq_getElem hi)
          obtain rfl : bs[i] = y := Option.some.inj ((List.getElem?_eq_getElem hi').symm.trans hy)
          rw [List.getElem_map, List.getElem_map]
          exact ih _ (List.getElem_mem hi) (ha _ (List.getElem_mem hi)) (hb _ (List.getElem_mem hi'))
            hsame
      | _ => exact absurd h.head_eq (by simp [head])
  | obj members ih =>
      cases b with
      | obj bs =>
          have hlen : members.length = bs.length := by simpa [head] using h.head_eq
          obtain ⟨hkeys, hparts⟩ := keys_nodup_of_obj ha
          obtain ⟨hkeys', hparts'⟩ := keys_nodup_of_obj hb
          rw [canon_obj, canon_obj]
          congr 1
          refine (sortMembers_eq_iff hrank (by rwa [List.map_map])).mpr ⟨by simp [hlen], ?_⟩
          intro m hm
          obtain ⟨n, hn, rfl⟩ := List.mem_map.mp hm
          obtain ⟨y, hy, hsame⟩ := h.part (s := .key n.1) ((lookup_eq_some_iff hkeys).mpr hn)
          have hmem : (n.1, y) ∈ bs := (lookup_eq_some_iff hkeys').mp hy
          refine List.mem_map.mpr ⟨(n.1, y), hmem, ?_⟩
          rw [ih n hn (hparts n hn) (hparts' _ hmem) hsame]
      | _ => exact absurd h.head_eq (by simp [head])

/-- **The same part by part is sorting alike.** -/
theorem same_iff_canon (hrank : Function.Injective rank) {a b : Tree W S}
    (ha : a.keysNodup = true) (hb : b.keysNodup = true) :
    Same a b ↔ a.canon rank = b.canon rank := by
  constructor
  · exact fun h => h.canon_eq hrank ha hb
  · intro h path
    have hlook : ∀ {t : Tree W S}, t.keysNodup = true → (t.canon rank).look path = t.look path :=
      fun ht => look_canon ht path
    rw [← hlook ha, ← hlook hb, h]

end Sorted

end SwarmAuth.Json.Tree
