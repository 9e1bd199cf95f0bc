import Mathlib.Data.List.Sort
import Mathlib.Data.List.Nodup
import Mathlib.Order.Defs.LinearOrder
import Mathlib.Tactic.Common

/-!
# JSON trees

The value model shared by every JSON reader and writer of the development: scalars
of a type `W`, strings of a type `S`, arrays, and objects as lists of members in
the order they stand. A tree may repeat a key, as a JSON text may; `lastWins` is
the reading that keeps the last member of each key, and `canon` sorts members by the
rank of their keys, so that two objects with the same members in another order have
one canonical form.

## Main definitions

* `Tree.fold`, `Tree.ind` — the recursor and the induction principle.
* `Tree.keysNodup` — no object repeats a key.
* `Tree.lastWins` — duplicate keys resolved to their last member.
* `Tree.canon` — members sorted by the rank of their keys, at every depth.
-/
namespace SwarmAuth.Json

/-- A JSON value over scalars `W` and strings `S`. -/
inductive Tree (W S : Type) where
  | scalar (w : W)
  | str (s : S)
  | arr (items : List (Tree W S))
  | obj (members : List (S × Tree W S))
  deriving Repr

namespace Tree
variable {W W' S S' R : Type}

mutual
/-- Evaluate a tree bottom-up. -/
def fold (scalar : W → R) (str : S → R) (arr : List R → R) (obj : List (S × R) → R) :
    Tree W S → R
  | .scalar w => scalar w
  | .str s => str s
  | .arr items => arr (foldItems scalar str arr obj items)
  | .obj members => obj (foldMembers scalar str arr obj members)
/-- `fold` over the items of an array. -/
def foldItems (scalar : W → R) (str : S → R) (arr : List R → R) (obj : List (S × R) → R) :
    List (Tree W S) → List R
  | [] => []
  | t :: ts => fold scalar str arr obj t :: foldItems scalar str arr obj ts
/-- `fold` over the members of an object. -/
def foldMembers (scalar : W → R) (str : S → R) (arr : List R → R) (obj : List (S × R) → R) :
    List (S × Tree W S) → List (S × R)
  | [] => []
  | (k, t) :: ms => (k, fold scalar str arr obj t) :: foldMembers scalar str arr obj ms
end

section Fold
variable (f : W → R) (g : S → R) (a : List R → R) (o : List (S × R) → R)

theorem foldItems_eq_map (ts : List (Tree W S)) :
    foldItems f g a o ts = ts.map (fold f g a o) := by
  induction ts with
  | nil => rfl
  | cons t ts ih => simp [foldItems, ih]

theorem foldMembers_eq_map (ms : List (S × Tree W S)) :
    foldMembers f g a o ms = ms.map fun m => (m.1, fold f g a o m.2) := by
  induction ms with
  | nil => rfl
  | cons m ms ih => simp [foldMembers, ih]

@[simp] theorem fold_scalar (w : W) : fold f g a o (.scalar w) = f w := rfl
@[simp] theorem fold_str (s : S) : fold f g a o (.str s) = g s := rfl
@[simp] theorem fold_arr (ts : List (Tree W S)) :
    fold f g a o (.arr ts) = a (ts.map (fold f g a o)) := by rw [fold, foldItems_eq_map]
@[simp] theorem fold_obj (ms : List (S × Tree W S)) :
    fold f g a o (.obj ms) = o (ms.map fun m => (m.1, fold f g a o m.2)) := by
  rw [fold, foldMembers_eq_map]

end Fold

mutual
/-- Induction on trees, with a hypothesis for every item and every member. -/
theorem ind {P : Tree W S → Prop} (scalar : ∀ w, P (.scalar w)) (str : ∀ s, P (.str s))
    (arr : ∀ items, (∀ t ∈ items, P t) → P (.arr items))
    (obj : ∀ members, (∀ m ∈ members, P m.2) → P (.obj members)) : ∀ t, P t
  | .scalar w => scalar w
  | .str s => str s
  | .arr items => arr items (indItems scalar str arr obj items)
  | .obj members => obj members (indMembers scalar str arr obj members)
/-- `ind` for the items of an array. -/
theorem indItems {P : Tree W S → Prop} (scalar : ∀ w, P (.scalar w)) (str : ∀ s, P (.str s))
    (arr : ∀ items, (∀ t ∈ items, P t) → P (.arr items))
    (obj : ∀ members, (∀ m ∈ members, P m.2) → P (.obj members)) :
    ∀ items : List (Tree W S), ∀ t ∈ items, P t
  | [], _, h => nomatch h
  | t :: _, _, .head _ => ind scalar str arr obj t
  | _ :: ts, u, .tail _ h => indItems scalar str arr obj ts u h
/-- `ind` for the members of an object. -/
theorem indMembers {P : Tree W S → Prop} (scalar : ∀ w, P (.scalar w)) (str : ∀ s, P (.str s))
    (arr : ∀ items, (∀ t ∈ items, P t) → P (.arr items))
    (obj : ∀ members, (∀ m ∈ members, P m.2) → P (.obj members)) :
    ∀ members : List (S × Tree W S), ∀ m ∈ members, P m.2
  | [], _, h => nomatch h
  | (_, t) :: _, _, .head _ => ind scalar str arr obj t
  | _ :: ms, u, .tail _ h => indMembers scalar str arr obj ms u h
end

mutual
/-- Equality of trees is decided along their structure. -/
def decEq [DecidableEq W] [DecidableEq S] : (a b : Tree W S) → Decidable (a = b)
  | .scalar a, .scalar b => decidable_of_iff (a = b) (by simp)
  | .str a, .str b => decidable_of_iff (a = b) (by simp)
  | .arr as, .arr bs =>
      have := decEqItems as bs
      decidable_of_iff (as = bs) (by simp)
  | .obj as, .obj bs =>
      have := decEqMembers as bs
      decidable_of_iff (as = bs) (by simp)
  | .scalar _, .str _ | .scalar _, .arr _ | .scalar _, .obj _ => isFalse nofun
  | .str _, .scalar _ | .str _, .arr _ | .str _, .obj _ => isFalse nofun
  | .arr _, .scalar _ | .arr _, .str _ | .arr _, .obj _ => isFalse nofun
  | .obj _, .scalar _ | .obj _, .str _ | .obj _, .arr _ => isFalse nofun
/-- `decEq` for the items of an array. -/
def decEqItems [DecidableEq W] [DecidableEq S] : (as bs : List (Tree W S)) → Decidable (as = bs)
  | [], [] => isTrue rfl
  | [], _ :: _ => isFalse nofun
  | _ :: _, [] => isFalse nofun
  | a :: as, b :: bs =>
      have := decEq a b
      have := decEqItems as bs
      decidable_of_iff (a = b ∧ as = bs) (by simp)
/-- `decEq` for the members of an object. -/
def decEqMembers [DecidableEq W] [DecidableEq S] :
    (as bs : List (S × Tree W S)) → Decidable (as = bs)
  | [], [] => isTrue rfl
  | [], _ :: _ => isFalse nofun
  | _ :: _, [] => isFalse nofun
  | (j, a) :: as, (k, b) :: bs =>
      have := decEq a b
      have := decEqMembers as bs
      decidable_of_iff (j = k ∧ a = b ∧ as = bs) (by simp [and_assoc])
end

instance [DecidableEq W] [DecidableEq S] : DecidableEq (Tree W S) := decEq

/-! ## Scalars and keys -/

theorem all_congr_mem {α : Type} {p q : α → Bool} {l : List α} (h : ∀ a ∈ l, p a = q a) :
    l.all p = l.all q := by
  induction l with
  | nil => rfl
  | cons a l ih =>
      rw [List.all_cons, List.all_cons, h a List.mem_cons_self,
        ih fun b hb => h b (List.mem_cons_of_mem a hb)]

/-- Every scalar of the tree passes `p`. -/
def allScalars (p : W → Bool) : Tree W S → Bool :=
  fold p (fun _ => true) (fun rs => rs.all id) (fun ms => ms.all Prod.snd)

@[simp] theorem allScalars_scalar (p : W → Bool) (w : W) :
    allScalars p (.scalar w : Tree W S) = p w := rfl
@[simp] theorem allScalars_str (p : W → Bool) (s : S) :
    allScalars p (.str s : Tree W S) = true := rfl
@[simp] theorem allScalars_arr (p : W → Bool) (ts : List (Tree W S)) :
    allScalars p (.arr ts) = ts.all (allScalars p) := by
  simp [allScalars]
@[simp] theorem allScalars_obj (p : W → Bool) (ms : List (S × Tree W S)) :
    allScalars p (.obj ms) = ms.all fun m => allScalars p m.2 := by
  simp [allScalars, Function.comp_def]

theorem allScalars_mono {p q : W → Bool} (h : ∀ w, p w = true → q w = true) {t : Tree W S}
    (ht : t.allScalars p = true) : t.allScalars q = true := by
  induction t using Tree.ind with
  | scalar w => exact h w ht
  | str s => rfl
  | arr items ih =>
      rw [allScalars_arr, List.all_eq_true] at ht ⊢
      exact fun t hmem => ih t hmem (ht t hmem)
  | obj members ih =>
      rw [allScalars_obj, List.all_eq_true] at ht ⊢
      exact fun m hmem => ih m hmem (ht m hmem)

theorem allScalars_and {p q : W → Bool} {t : Tree W S} (hp : t.allScalars p = true)
    (hq : t.allScalars q = true) : t.allScalars (fun w => p w && q w) = true := by
  induction t using Tree.ind with
  | scalar w => exact Bool.and_eq_true_iff.mpr ⟨hp, hq⟩
  | str s => rfl
  | arr items ih =>
      rw [allScalars_arr, List.all_eq_true] at hp hq ⊢
      exact fun t hmem => ih t hmem (hp t hmem) (hq t hmem)
  | obj members ih =>
      rw [allScalars_obj, List.all_eq_true] at hp hq ⊢
      exact fun m hmem => ih m hmem (hp m hmem) (hq m hmem)

theorem allScalars_of_forall {p : W → Bool} (h : ∀ w, p w = true) (t : Tree W S) :
    t.allScalars p = true := by
  induction t using Tree.ind with
  | scalar w => exact h w
  | str s => rfl
  | arr items ih =>
      rw [allScalars_arr, List.all_eq_true]
      exact ih
  | obj members ih =>
      rw [allScalars_obj, List.all_eq_true]
      exact ih

section Keys
variable [DecidableEq S]

/-- No object of the tree repeats a key. -/
def keysNodup : Tree W S → Bool :=
  fold (fun _ => true) (fun _ => true) (fun rs => rs.all id)
    (fun ms => decide (ms.map Prod.fst).Nodup && ms.all Prod.snd)

@[simp] theorem keysNodup_scalar (w : W) : keysNodup (.scalar w : Tree W S) = true := rfl
@[simp] theorem keysNodup_str (s : S) : keysNodup (.str s : Tree W S) = true := rfl
@[simp] theorem keysNodup_arr (ts : List (Tree W S)) :
    keysNodup (.arr ts) = ts.all keysNodup := by
  simp [keysNodup]
@[simp] theorem keysNodup_obj (ms : List (S × Tree W S)) :
    keysNodup (.obj ms) = (decide (ms.map Prod.fst).Nodup && ms.all fun m => keysNodup m.2) := by
  simp [keysNodup, Function.comp_def]

/-- Assign a key: replace its value where the key stands, else append the member. -/
def upsert {α : Type} (ms : List (S × α)) (m : S × α) : List (S × α) :=
  if m.1 ∈ ms.map Prod.fst then ms.map fun n => if n.1 = m.1 then m else n else ms ++ [m]

/-- Members read left to right into a map: the last value of a key wins. -/
def assign {α : Type} (ms : List (S × α)) : List (S × α) := ms.foldl upsert []

/-- Every object read as a map in which the last member of a key wins. -/
def lastWins : Tree W S → Tree W S :=
  fold .scalar .str .arr fun ms => .obj (assign ms)

@[simp] theorem lastWins_scalar (w : W) : lastWins (.scalar w : Tree W S) = .scalar w := rfl
@[simp] theorem lastWins_str (s : S) : lastWins (.str s : Tree W S) = .str s := rfl
@[simp] theorem lastWins_arr (ts : List (Tree W S)) :
    lastWins (.arr ts) = .arr (ts.map lastWins) := by simp [lastWins]
@[simp] theorem lastWins_obj (ms : List (S × Tree W S)) :
    lastWins (.obj ms) = .obj (assign (ms.map fun m => (m.1, lastWins m.2))) := by
  simp [lastWins]

theorem foldl_upsert_of_nodup {α : Type} (ms acc : List (S × α))
    (h : ((acc ++ ms).map Prod.fst).Nodup) : ms.foldl upsert acc = acc ++ ms := by
  induction ms generalizing acc with
  | nil => simp
  | cons m ms ih =>
      have hm : m.1 ∉ acc.map Prod.fst := by
        intro hin
        simp only [List.map_append, List.map_cons] at h
        exact (List.nodup_append.mp h).2.2 _ hin _ List.mem_cons_self rfl
      rw [List.foldl_cons, upsert, if_neg hm, ih]
      · simp
      · simpa using h

/-- Members with distinct keys are already a map. -/
theorem assign_of_nodup {α : Type} (ms : List (S × α)) (h : (ms.map Prod.fst).Nodup) :
    assign ms = ms := by
  simpa [assign] using foldl_upsert_of_nodup ms [] (by simpa using h)

/-- A tree without repeated keys is its own last-wins reading. -/
theorem lastWins_of_keysNodup (t : Tree W S) (h : t.keysNodup = true) : t.lastWins = t := by
  induction t using Tree.ind with
  | scalar w => rfl
  | str s => rfl
  | arr items ih =>
      rw [keysNodup_arr, List.all_eq_true] at h
      rw [lastWins_arr, List.map_congr_left fun t ht => ih t ht (h t ht), List.map_id']
  | obj members ih =>
      rw [keysNodup_obj, Bool.and_eq_true, decide_eq_true_eq, List.all_eq_true] at h
      have hid : members.map (fun m => (m.1, lastWins m.2)) = members := by
        rw [List.map_congr_left (g := id) fun m hm => ?_, List.map_id]
        rw [ih m hm (h.2 m hm), id]
      rw [lastWins_obj, hid, assign_of_nodup members h.1]

theorem mem_foldl_upsert {α : Type} {ms acc : List (S × α)} {m : S × α}
    (h : m ∈ ms.foldl upsert acc) : m ∈ acc ∨ m ∈ ms := by
  induction ms generalizing acc with
  | nil => exact Or.inl h
  | cons n ms ih =>
      rcases ih h with hacc | hms
      · rw [upsert] at hacc
        split_ifs at hacc
        · obtain ⟨k, hk, hm⟩ := List.mem_map.mp hacc
          split_ifs at hm
          · exact Or.inr (hm ▸ List.mem_cons_self)
          · exact Or.inl (hm ▸ hk)
        · rcases List.mem_append.mp hacc with hacc | hn
          · exact Or.inl hacc
          · exact Or.inr (List.mem_singleton.mp hn ▸ List.mem_cons_self)
      · exact Or.inr (List.mem_cons_of_mem n hms)

/-- A map holds members that were assigned. -/
theorem mem_assign {α : Type} {ms : List (S × α)} {m : S × α} (h : m ∈ assign ms) : m ∈ ms :=
  (mem_foldl_upsert h).resolve_left List.not_mem_nil

theorem nodup_foldl_upsert {α : Type} {ms acc : List (S × α)} (h : (acc.map Prod.fst).Nodup) :
    ((ms.foldl upsert acc).map Prod.fst).Nodup := by
  induction ms generalizing acc with
  | nil => exact h
  | cons m ms ih =>
      apply ih
      rw [upsert]
      split_ifs with hm
      · have hkeys : (acc.map fun n => if n.1 = m.1 then m else n).map Prod.fst = acc.map Prod.fst := by
          rw [List.map_map]
          apply List.map_congr_left
          intro n _
          simp only [Function.comp_apply]
          split_ifs with hn
          · exact hn.symm
          · rfl
        rw [hkeys]
        exact h
      · rw [List.map_append, List.nodup_append]
        refine ⟨h, List.nodup_singleton _, fun a ha b hb hab => hm ?_⟩
        rw [← List.mem_singleton.mp hb, ← hab]
        exact ha

/-- **A last-wins reading repeats no key.** -/
theorem keysNodup_lastWins (t : Tree W S) : t.lastWins.keysNodup = true := by
  induction t using Tree.ind with
  | scalar w => rfl
  | str s => rfl
  | arr items ih =>
      rw [lastWins_arr, keysNodup_arr, List.all_map, List.all_eq_true]
      exact ih
  | obj members ih =>
      rw [lastWins_obj, keysNodup_obj, Bool.and_eq_true, decide_eq_true_eq, List.all_eq_true]
      refine ⟨nodup_foldl_upsert List.nodup_nil, fun m hm => ?_⟩
      obtain ⟨n, hn, rfl⟩ := List.mem_map.mp (mem_assign hm)
      exact ih n hn

/-- A last-wins reading has no other scalars. -/
theorem allScalars_lastWins {p : W → Bool} {t : Tree W S} (h : t.allScalars p = true) :
    t.lastWins.allScalars p = true := by
  induction t using Tree.ind with
  | scalar w => exact h
  | str s => rfl
  | arr items ih =>
      rw [allScalars_arr, List.all_eq_true] at h
      rw [lastWins_arr, allScalars_arr, List.all_map, List.all_eq_true]
      exact fun t ht => ih t ht (h t ht)
  | obj members ih =>
      rw [allScalars_obj, List.all_eq_true] at h
      rw [lastWins_obj, allScalars_obj, List.all_eq_true]
      intro m hm
      obtain ⟨n, hn, rfl⟩ := List.mem_map.mp (mem_assign hm)
      exact ih n hn (h n hn)

end Keys

/-! ## Canonical order -/

section Canon
variable {K : Type} [LinearOrder K] (rank : S → K)

/-- Members in the order of their keys' ranks. -/
def sortMembers {α : Type} (ms : List (S × α)) : List (S × α) :=
  ms.insertionSort fun a b => rank a.1 ≤ rank b.1

/-- Every object's members in the order of their keys' ranks. -/
def canon : Tree W S → Tree W S := fold .scalar .str .arr fun ms => .obj (sortMembers rank ms)

@[simp] theorem canon_scalar (w : W) : canon rank (.scalar w : Tree W S) = .scalar w := rfl
@[simp] theorem canon_str (s : S) : canon rank (.str s : Tree W S) = .str s := rfl
@[simp] theorem canon_arr (ts : List (Tree W S)) :
    canon rank (.arr ts) = .arr (ts.map (canon rank)) := by
  simp [canon]
@[simp] theorem canon_obj (ms : List (S × Tree W S)) :
    canon rank (.obj ms) = .obj (sortMembers rank (ms.map fun m => (m.1, canon rank m.2))) := by
  simp [canon]

theorem sortMembers_perm {α : Type} (ms : List (S × α)) : (sortMembers rank ms).Perm ms :=
  List.perm_insertionSort _ ms

@[simp] theorem mem_sortMembers {α : Type} (ms : List (S × α)) (m : S × α) :
    m ∈ sortMembers rank ms ↔ m ∈ ms := (sortMembers_perm rank ms).mem_iff

/-- Sorting members keeps the tree free of repeated keys. -/
theorem keysNodup_canon [DecidableEq S] (t : Tree W S) :
    (t.canon rank).keysNodup = t.keysNodup := by
  induction t using Tree.ind with
  | scalar w => rfl
  | str s => rfl
  | arr items ih =>
      rw [canon_arr, keysNodup_arr, keysNodup_arr, List.all_map]
      exact all_congr_mem fun t ht => ih t ht
  | obj members ih =>
      rw [canon_obj, keysNodup_obj, keysNodup_obj]
      congr 1
      · rw [decide_eq_decide]
        have h := ((sortMembers_perm rank (members.map fun m => (m.1, canon rank m.2))).map Prod.fst)
        rw [h.nodup_iff, List.map_map]
        rfl
      · rw [(sortMembers_perm rank _).all_eq, List.all_map]
        exact all_congr_mem fun m hm => ih m hm

/-- Sorting members keeps the scalars. -/
theorem allScalars_canon (p : W → Bool) (t : Tree W S) :
    (t.canon rank).allScalars p = t.allScalars p := by
  induction t using Tree.ind with
  | scalar w => rfl
  | str s => rfl
  | arr items ih =>
      rw [canon_arr, allScalars_arr, allScalars_arr, List.all_map]
      exact all_congr_mem fun t ht => ih t ht
  | obj members ih =>
      rw [canon_obj, allScalars_obj, allScalars_obj, (sortMembers_perm rank _).all_eq, List.all_map]
      exact all_congr_mem fun m hm => ih m hm

variable {rank}

/-- Members with distinct keys sort to the same list from any order. -/
theorem sortMembers_eq_of_perm {α : Type} (hrank : Function.Injective rank) {ms ns : List (S × α)}
    (h : ms.Perm ns) (hn : (ms.map Prod.fst).Nodup) : sortMembers rank ms = sortMembers rank ns := by
  have hp : (sortMembers rank ms).Perm (sortMembers rank ns) :=
    (sortMembers_perm rank ms).trans (h.trans (sortMembers_perm rank ns).symm)
  have hms : (sortMembers rank ms).Pairwise fun a b => rank a.1 ≤ rank b.1 :=
    List.pairwise_insertionSort _ ms
  refine hp.eq_of_pairwise ?_ hms (List.pairwise_insertionSort _ ns)
  intro a b ha _ hab hba
  have ha' : a ∈ ms := (mem_sortMembers rank ms a).mp ha
  have hb' : b ∈ ms := (mem_sortMembers rank ms b).mp (hp.mem_iff.mpr ‹_›)
  exact List.inj_on_of_nodup_map hn ha' hb' (hrank (le_antisymm hab hba))

/-- Members already in order stay as they are. -/
theorem sortMembers_sorted {α : Type} (ms : List (S × α)) :
    sortMembers rank (sortMembers rank ms) = sortMembers rank ms :=
  (List.pairwise_insertionSort _ ms).insertionSort_eq

/-- Sorting looks at the keys only. -/
theorem sortMembers_map {α β : Type} (g : α → β) (ms : List (S × α)) :
    sortMembers rank (ms.map fun m => (m.1, g m.2)) =
      (sortMembers rank ms).map fun m => (m.1, g m.2) := by
  rw [sortMembers, sortMembers]
  exact (List.map_insertionSort (fun a b : S × α => rank a.1 ≤ rank b.1)
    (fun a b : S × β => rank a.1 ≤ rank b.1) _ ms fun _ _ _ _ => Iff.rfl).symm

/-- Sorting members twice is sorting them once. -/
theorem canon_canon (t : Tree W S) : (t.canon rank).canon rank = t.canon rank := by
  induction t using Tree.ind with
  | scalar w => rfl
  | str s => rfl
  | arr items ih =>
      rw [canon_arr, canon_arr, List.map_map]
      exact congrArg arr (List.map_congr_left ih)
  | obj members ih =>
      have hid : (sortMembers rank (members.map fun m => (m.1, canon rank m.2))).map
          (fun m => (m.1, canon rank m.2)) =
          sortMembers rank (members.map fun m => (m.1, canon rank m.2)) := by
        rw [List.map_congr_left (g := id) fun m hm => ?_, List.map_id]
        rw [mem_sortMembers] at hm
        obtain ⟨n, hn, rfl⟩ := List.mem_map.mp hm
        rw [ih n hn, id]
      rw [canon_obj, canon_obj, hid, sortMembers_sorted]

end Canon

/-! ## Other scalars -/

section MapScalars
variable (f : W → W')

/-- Every scalar replaced. -/
def mapScalars : Tree W S → Tree W' S := fold (fun w => .scalar (f w)) .str .arr .obj

@[simp] theorem mapScalars_scalar (w : W) :
    mapScalars f (.scalar w : Tree W S) = .scalar (f w) := rfl
@[simp] theorem mapScalars_str (s : S) : mapScalars f (.str s : Tree W S) = .str s := rfl
@[simp] theorem mapScalars_arr (ts : List (Tree W S)) :
    mapScalars f (.arr ts) = .arr (ts.map (mapScalars f)) := by simp [mapScalars]
@[simp] theorem mapScalars_obj (ms : List (S × Tree W S)) :
    mapScalars f (.obj ms) = .obj (ms.map fun m => (m.1, mapScalars f m.2)) := by
  simp [mapScalars]

theorem allScalars_mapScalars (p : W' → Bool) (t : Tree W S) :
    (t.mapScalars f).allScalars p = t.allScalars fun w => p (f w) := by
  induction t using Tree.ind with
  | scalar w => rfl
  | str s => rfl
  | arr items ih =>
      rw [mapScalars_arr, allScalars_arr, allScalars_arr, List.all_map]
      exact all_congr_mem fun t ht => ih t ht
  | obj members ih =>
      rw [mapScalars_obj, allScalars_obj, allScalars_obj, List.all_map]
      exact all_congr_mem fun m hm => ih m hm

theorem canon_mapScalars {K : Type} [LinearOrder K] (rank : S → K) (t : Tree W S) :
    (t.mapScalars f).canon rank = (t.canon rank).mapScalars f := by
  induction t using Tree.ind with
  | scalar w => rfl
  | str s => rfl
  | arr items ih =>
      rw [mapScalars_arr, canon_arr, canon_arr, mapScalars_arr, List.map_map, List.map_map]
      exact congrArg arr (List.map_congr_left ih)
  | obj members ih =>
      have hmembers : (members.map fun m => (m.1, mapScalars f m.2)).map (fun m => (m.1, canon rank m.2)) =
          (members.map fun m => (m.1, canon rank m.2)).map fun m => (m.1, mapScalars f m.2) := by
        rw [List.map_map, List.map_map]
        apply List.map_congr_left
        intro m hm
        simp only [Function.comp_apply, ih m hm]
      rw [mapScalars_obj, canon_obj, canon_obj, mapScalars_obj, hmembers, sortMembers_map]

end MapScalars

/-! ## Other strings -/

section MapStrs
variable (g : S → S')

/-- Every string replaced, the keys with them. -/
def mapStrs : Tree W S → Tree W S' :=
  fold .scalar (fun s => .str (g s)) .arr fun ms => .obj (ms.map fun m => (g m.1, m.2))

@[simp] theorem mapStrs_scalar (w : W) : mapStrs g (.scalar w : Tree W S) = .scalar w := rfl
@[simp] theorem mapStrs_str (s : S) : mapStrs g (.str s : Tree W S) = .str (g s) := rfl
@[simp] theorem mapStrs_arr (ts : List (Tree W S)) :
    mapStrs g (.arr ts) = .arr (ts.map (mapStrs g)) := by simp [mapStrs]
@[simp] theorem mapStrs_obj (ms : List (S × Tree W S)) :
    mapStrs g (.obj ms) = .obj (ms.map fun m => (g m.1, mapStrs g m.2)) := by
  simp [mapStrs, Function.comp_def]

theorem allScalars_mapStrs (p : W → Bool) (t : Tree W S) :
    (t.mapStrs g).allScalars p = t.allScalars p := by
  induction t using Tree.ind with
  | scalar w => rfl
  | str s => rfl
  | arr items ih =>
      rw [mapStrs_arr, allScalars_arr, allScalars_arr, List.all_map]
      exact all_congr_mem fun t ht => ih t ht
  | obj members ih =>
      rw [mapStrs_obj, allScalars_obj, allScalars_obj, List.all_map]
      exact all_congr_mem fun m hm => ih m hm

theorem mapStrs_mapStrs {T : Type} (g' : S' → T) (t : Tree W S) :
    (t.mapStrs g).mapStrs g' = t.mapStrs fun s => g' (g s) := by
  induction t using Tree.ind with
  | scalar w => rfl
  | str s => rfl
  | arr items ih =>
      rw [mapStrs_arr, mapStrs_arr, mapStrs_arr, List.map_map]
      exact congrArg arr (List.map_congr_left ih)
  | obj members ih =>
      rw [mapStrs_obj, mapStrs_obj, mapStrs_obj, List.map_map]
      refine congrArg obj (List.map_congr_left fun m hm => ?_)
      simp only [Function.comp_apply, ih m hm]

/-- Every string of the tree, the keys with them, passes `q`. -/
def allStrs (q : S → Bool) : Tree W S → Bool :=
  fold (fun _ => true) q (fun rs => rs.all id) fun ms => ms.all fun m => q m.1 && m.2

@[simp] theorem allStrs_scalar (q : S → Bool) (w : W) :
    allStrs q (.scalar w : Tree W S) = true := rfl
@[simp] theorem allStrs_str (q : S → Bool) (s : S) : allStrs q (.str s : Tree W S) = q s := rfl
@[simp] theorem allStrs_arr (q : S → Bool) (ts : List (Tree W S)) :
    allStrs q (.arr ts) = ts.all (allStrs q) := by
  simp [allStrs]
@[simp] theorem allStrs_obj (q : S → Bool) (ms : List (S × Tree W S)) :
    allStrs q (.obj ms) = ms.all fun m => q m.1 && allStrs q m.2 := by
  simp [allStrs, Function.comp_def]

theorem allStrs_mapStrs (q : S' → Bool) (t : Tree W S) :
    (t.mapStrs g).allStrs q = t.allStrs fun s => q (g s) := by
  induction t using Tree.ind with
  | scalar w => rfl
  | str s => rfl
  | arr items ih =>
      rw [mapStrs_arr, allStrs_arr, allStrs_arr, List.all_map]
      exact all_congr_mem fun t ht => ih t ht
  | obj members ih =>
      rw [mapStrs_obj, allStrs_obj, allStrs_obj, List.all_map]
      refine all_congr_mem fun m hm => ?_
      simp only [Function.comp_apply, ih m hm]

theorem mapStrs_of_allStrs {q : S → Bool} {g : S → S} (hg : ∀ s, q s = true → g s = s)
    {t : Tree W S} (h : t.allStrs q = true) : t.mapStrs g = t := by
  induction t using Tree.ind with
  | scalar w => rfl
  | str s => rw [mapStrs_str, hg s h]
  | arr items ih =>
      rw [allStrs_arr, List.all_eq_true] at h
      rw [mapStrs_arr, List.map_congr_left fun t ht => ih t ht (h t ht), List.map_id']
  | obj members ih =>
      rw [allStrs_obj, List.all_eq_true] at h
      rw [mapStrs_obj, List.map_congr_left (g := id) fun m hm => ?_, List.map_id]
      obtain ⟨hkey, hvalue⟩ := Bool.and_eq_true_iff.mp (h m hm)
      rw [hg m.1 hkey, ih m hm hvalue]
      rfl

theorem allStrs_of_forall {q : S → Bool} (h : ∀ s, q s = true) (t : Tree W S) :
    t.allStrs q = true := by
  induction t using Tree.ind with
  | scalar w => rfl
  | str s => exact h s
  | arr items ih =>
      rw [allStrs_arr, List.all_eq_true]
      exact ih
  | obj members ih =>
      rw [allStrs_obj, List.all_eq_true]
      exact fun m hm => Bool.and_eq_true_iff.mpr ⟨h m.1, ih m hm⟩

theorem mapStrs_id (t : Tree W S) : t.mapStrs id = t :=
  mapStrs_of_allStrs (fun _ _ => rfl) (allStrs_of_forall (fun _ => rfl) t)

/-- Sorting members keeps the strings. -/
theorem allStrs_canon {K : Type} [LinearOrder K] (rank : S → K) (q : S → Bool) (t : Tree W S) :
    (t.canon rank).allStrs q = t.allStrs q := by
  induction t using Tree.ind with
  | scalar w => rfl
  | str s => rfl
  | arr items ih =>
      rw [canon_arr, allStrs_arr, allStrs_arr, List.all_map]
      exact all_congr_mem fun t ht => ih t ht
  | obj members ih =>
      rw [canon_obj, allStrs_obj, allStrs_obj, (sortMembers_perm rank _).all_eq, List.all_map]
      refine all_congr_mem fun m hm => ?_
      simp only [Function.comp_apply, ih m hm]

/-- A last-wins reading has no other strings. -/
theorem allStrs_lastWins [DecidableEq S] {q : S → Bool} {t : Tree W S} (h : t.allStrs q = true) :
    t.lastWins.allStrs q = true := by
  induction t using Tree.ind with
  | scalar w => rfl
  | str s => exact h
  | arr items ih =>
      rw [allStrs_arr, List.all_eq_true] at h
      rw [lastWins_arr, allStrs_arr, List.all_map, List.all_eq_true]
      exact fun t ht => ih t ht (h t ht)
  | obj members ih =>
      rw [allStrs_obj, List.all_eq_true] at h
      rw [lastWins_obj, allStrs_obj, List.all_eq_true]
      intro m hm
      obtain ⟨n, hn, rfl⟩ := List.mem_map.mp (mem_assign hm)
      obtain ⟨hkey, hvalue⟩ := Bool.and_eq_true_iff.mp (h n hn)
      exact Bool.and_eq_true_iff.mpr ⟨hkey, ih n hn hvalue⟩

end MapStrs

/-! ## Nesting -/

/-- How many arrays and objects stand inside each other. -/
def depth : Tree W S → ℕ :=
  fold (fun _ => 0) (fun _ => 0) (fun ds => ds.foldr max 0 + 1)
    fun ds => (ds.map Prod.snd).foldr max 0 + 1

theorem foldr_max_le {ds : List ℕ} {n : ℕ} : ds.foldr max 0 ≤ n ↔ ∀ d ∈ ds, d ≤ n := by
  induction ds with
  | nil => simp
  | cons d ds ih => rw [List.foldr_cons, Nat.max_le, ih, List.forall_mem_cons]

@[simp] theorem depth_scalar (w : W) : depth (.scalar w : Tree W S) = 0 := rfl
@[simp] theorem depth_str (s : S) : depth (.str s : Tree W S) = 0 := rfl
theorem depth_arr_le {ts : List (Tree W S)} {n : ℕ} :
    depth (.arr ts) ≤ n ↔ 0 < n ∧ ∀ t ∈ ts, depth t ≤ n - 1 := by
  rw [depth, fold_arr, Nat.add_one_le_iff]
  constructor
  · intro h
    refine ⟨by omega, fun t ht => ?_⟩
    exact foldr_max_le.mp (Nat.le_sub_one_of_lt h) _ (List.mem_map_of_mem ht)
  · intro h
    have hle : (ts.map depth).foldr max 0 ≤ n - 1 := by
      rw [foldr_max_le, List.forall_mem_map]
      exact h.2
    exact lt_of_le_of_lt hle (Nat.sub_one_lt_of_lt h.1)
theorem depth_obj_le {ms : List (S × Tree W S)} {n : ℕ} :
    depth (.obj ms) ≤ n ↔ 0 < n ∧ ∀ m ∈ ms, depth m.2 ≤ n - 1 := by
  rw [depth, fold_obj, Nat.add_one_le_iff, List.map_map]
  constructor
  · intro h
    refine ⟨by omega, fun m hm => ?_⟩
    exact foldr_max_le.mp (Nat.le_sub_one_of_lt h) _ (List.mem_map_of_mem hm)
  · intro h
    have hle : (ms.map fun m => depth m.2).foldr max 0 ≤ n - 1 := by
      rw [foldr_max_le, List.forall_mem_map]
      exact h.2
    exact lt_of_le_of_lt hle (Nat.sub_one_lt_of_lt h.1)

theorem depth_mapStrs_le (g : S → S') {t : Tree W S} {n : ℕ} :
    (t.mapStrs g).depth ≤ n ↔ t.depth ≤ n := by
  induction t using Tree.ind generalizing n with
  | scalar w => rfl
  | str s => rfl
  | arr items ih =>
      rw [mapStrs_arr, depth_arr_le, depth_arr_le, List.forall_mem_map]
      exact and_congr_right fun _ => forall₂_congr fun t ht => ih t ht
  | obj members ih =>
      rw [mapStrs_obj, depth_obj_le, depth_obj_le, List.forall_mem_map]
      exact and_congr_right fun _ => forall₂_congr fun m hm => ih m hm

theorem depth_canon_le {K : Type} [LinearOrder K] (rank : S → K) {t : Tree W S} {n : ℕ} :
    (t.canon rank).depth ≤ n ↔ t.depth ≤ n := by
  induction t using Tree.ind generalizing n with
  | scalar w => rfl
  | str s => rfl
  | arr items ih =>
      rw [canon_arr, depth_arr_le, depth_arr_le, List.forall_mem_map]
      exact and_congr_right fun _ => forall₂_congr fun t ht => ih t ht
  | obj members ih =>
      rw [canon_obj, depth_obj_le, depth_obj_le]
      simp only [mem_sortMembers]
      rw [List.forall_mem_map]
      exact and_congr_right fun _ => forall₂_congr fun m hm => ih m hm

/-- A last-wins reading is no deeper. -/
theorem depth_lastWins_le [DecidableEq S] {t : Tree W S} {n : ℕ} (h : t.depth ≤ n) :
    t.lastWins.depth ≤ n := by
  induction t using Tree.ind generalizing n with
  | scalar w => exact h
  | str s => exact h
  | arr items ih =>
      rw [depth_arr_le] at h
      rw [lastWins_arr, depth_arr_le, List.forall_mem_map]
      exact ⟨h.1, fun t ht => ih t ht (h.2 t ht)⟩
  | obj members ih =>
      rw [depth_obj_le] at h
      rw [lastWins_obj, depth_obj_le]
      refine ⟨h.1, fun m hm => ?_⟩
      obtain ⟨n', hn, rfl⟩ := List.mem_map.mp (mem_assign hm)
      exact ih n' hn (h.2 n' hn)

end Tree
end SwarmAuth.Json
