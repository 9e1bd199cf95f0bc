import SwarmAuth.Lib.JsonTree

/-!
# Equality of JSON values

Implementations compare JSON values by different recursions: key sets and then members,
lengths and then members, with different readings of scalars. A comparison that goes by
kinds, items and members is equality of canonical views: scalars replaced by what the
comparison sees of them, strings by a common form, members in order.

## Main definitions

* `Tree.view` — the canonical view.
* `Tree.Compares` — a comparison by kinds, items and members.
* `Tree.Compares.iff_view` — it is equality of views.
-/
namespace SwarmAuth.Json.Tree
variable {W S X T K : Type} [LinearOrder K]

section View
variable (f : W → X) (g : S → T) (rank : T → K)

/-- Scalars replaced by what is seen of them, strings by a common form, members in order. -/
def view (t : Tree W S) : Tree X T := ((t.mapScalars f).mapStrs g).canon rank

@[simp] theorem view_scalar (w : W) : view f g rank (.scalar w : Tree W S) = .scalar (f w) := rfl
@[simp] theorem view_str (s : S) : view f g rank (.str s : Tree W S) = .str (g s) := rfl
@[simp] theorem view_arr (ts : List (Tree W S)) :
    view f g rank (.arr ts) = .arr (ts.map (view f g rank)) := by
  simp [view, Function.comp_def]
@[simp] theorem view_obj (ms : List (S × Tree W S)) :
    view f g rank (.obj ms) = .obj (sortMembers rank (ms.map fun m => (g m.1, view f g rank m.2))) := by
  simp [view, Function.comp_def]

theorem allScalars_view (p : X → Bool) (t : Tree W S) :
    (t.view f g rank).allScalars p = t.allScalars fun w => p (f w) := by
  rw [view, allScalars_canon, allScalars_mapStrs, allScalars_mapScalars]

variable {g rank}

/-- Views keep keys apart. -/
theorem keysNodup_view [DecidableEq S] [DecidableEq T] (hg : Function.Injective g) (t : Tree W S) :
    (t.view f g rank).keysNodup = t.keysNodup := by
  induction t using Tree.ind with
  | scalar w => rfl
  | str s => rfl
  | arr items ih =>
      rw [view_arr, keysNodup_arr, keysNodup_arr, List.all_map]
      exact all_congr_mem fun t ht => ih t ht
  | obj members ih =>
      rw [view_obj, keysNodup_obj, keysNodup_obj]
      congr 1
      · rw [decide_eq_decide, ((sortMembers_perm rank _).map Prod.fst).nodup_iff, List.map_map]
        have hkeys : members.map (Prod.fst ∘ fun m => (g m.1, view f g rank m.2)) =
            (members.map Prod.fst).map g := by rw [List.map_map]; rfl
        rw [hkeys, List.nodup_map_iff hg]
      · rw [(sortMembers_perm rank _).all_eq, List.all_map]
        exact all_congr_mem fun m hm => ih m hm

end View

/-! ## Members in any order -/

/-- Members with distinct keys sort alike when they are as many and each is found. -/
theorem sortMembers_eq_iff {α : Type} {rank : T → K} (hrank : Function.Injective rank)
    {ms ns : List (T × α)} (hms : (ms.map Prod.fst).Nodup) :
    sortMembers rank ms = sortMembers rank ns ↔ ms.length = ns.length ∧ ∀ m ∈ ms, m ∈ ns := by
  constructor
  · intro h
    have hp : ms.Perm ns :=
      (sortMembers_perm rank ms).symm.trans (h ▸ sortMembers_perm rank ns)
    exact ⟨hp.length_eq, fun m hm => hp.mem_iff.mp hm⟩
  · intro h
    have hsub : ms.Subperm ns := List.subperm_of_subset hms.of_map h.2
    exact sortMembers_eq_of_perm hrank (hsub.perm_of_length_le h.1.ge) hms

/-- In a list without repeated keys, a key's member is the one found. -/
theorem lookup_eq_some_iff {α : Type} [BEq S] [LawfulBEq S] {ms : List (S × α)}
    (hms : (ms.map Prod.fst).Nodup) {k : S} {a : α} : ms.lookup k = some a ↔ (k, a) ∈ ms := by
  induction ms with
  | nil => simp
  | cons m ms ih =>
      obtain ⟨j, b⟩ := m
      rw [List.map_cons, List.nodup_cons] at hms
      by_cases hk : k = j
      · subst hk
        simp only [List.lookup_cons, beq_self_eq_true, Option.some.injEq, List.mem_cons,
          Prod.mk.injEq, true_and]
        constructor
        · intro h
          exact Or.inl h.symm
        · intro h
          exact h.elim Eq.symm fun hmem => absurd (List.mem_map_of_mem hmem) hms.1
      · have hbeq : (k == j) = false := by simpa using hk
        simp only [List.lookup_cons, hbeq, List.mem_cons, Prod.mk.injEq, hk, false_and, false_or]
        exact ih hms.2

section Lookup
variable {α : Type} [DecidableEq S] [BEq S] [LawfulBEq S]

theorem lookup_cons_if (m : S × α) (ms : List (S × α)) (k : S) :
    (m :: ms).lookup k = if k = m.1 then some m.2 else ms.lookup k := by
  rw [List.lookup_cons]
  by_cases hk : k = m.1
  · simp [hk]
  · rw [if_neg hk, beq_eq_false_iff_ne.mpr hk]

omit [DecidableEq S] in
theorem lookup_eq_none {ms : List (S × α)} {k : S} (h : k ∉ ms.map Prod.fst) : ms.lookup k = none := by
  rw [List.lookup_eq_none_iff]
  intro m hm
  rw [bne_iff_ne]
  exact fun heq => h (heq ▸ List.mem_map_of_mem hm)

theorem lookup_upsert (ms : List (S × α)) (m : S × α) (k : S) :
    (upsert ms m).lookup k = if k = m.1 then some m.2 else ms.lookup k := by
  by_cases hm : m.1 ∈ ms.map Prod.fst
  · rw [upsert, if_pos hm]
    by_cases hk : k = m.1
    · rw [if_pos hk]
      induction ms with
      | nil => exact absurd hm List.not_mem_nil
      | cons n ms ih =>
          rw [List.map_cons, lookup_cons_if]
          by_cases hn : n.1 = m.1
          · rw [if_pos hn, if_pos hk]
          · rw [if_neg hn, if_neg (hk ▸ Ne.symm hn)]
            exact ih ((List.mem_cons.mp hm).resolve_left (Ne.symm hn))
    · rw [if_neg hk]
      clear hm
      induction ms with
      | nil => rfl
      | cons n ms ih =>
          rw [List.map_cons, lookup_cons_if, lookup_cons_if, ih]
          by_cases hn : n.1 = m.1
          · rw [if_pos hn, if_neg hk, if_neg (hn ▸ hk)]
          · rw [if_neg hn]
  · rw [upsert, if_neg hm, List.lookup_append, lookup_cons_if, List.lookup_nil]
    by_cases hk : k = m.1
    · rw [if_pos hk, if_pos hk, hk, lookup_eq_none hm, Option.none_or]
    · rw [if_neg hk, if_neg hk, Option.or_none]

/-- After an update the new members are found, then the old. -/
theorem lookup_foldl_upsert {ms ns : List (S × α)} (hns : (ns.map Prod.fst).Nodup) (k : S) :
    (ns.foldl upsert ms).lookup k = (ns.lookup k).or (ms.lookup k) := by
  induction ns generalizing ms with
  | nil => rfl
  | cons n ns ih =>
      rw [List.map_cons, List.nodup_cons] at hns
      rw [List.foldl_cons, ih hns.2, lookup_upsert, lookup_cons_if]
      by_cases hk : k = n.1
      · rw [if_pos hk, if_pos hk, hk, lookup_eq_none hns.1, Option.none_or, Option.some_or]
      · rw [if_neg hk, if_neg hk]

end Lookup

/-! ## Comparisons -/

/-- A comparison by kinds, items and members, which sees of a scalar on its left that `p`
admits what `f` shows. -/
structure Compares [BEq S] (eq : Tree W S → Tree W S → Bool) (p : W → Bool) (f : W → X) :
    Prop where
  scalar : ∀ a t, p a = true → (eq (.scalar a) t = true ↔ ∃ b, t = .scalar b ∧ f a = f b)
  str : ∀ s t, eq (.str s) t = true ↔ t = .str s
  arr : ∀ xs t, (∀ x ∈ xs, x.allScalars p = true) → (eq (.arr xs) t = true ↔
    ∃ ys, t = .arr ys ∧ List.Forall₂ (fun a b => eq a b = true) xs ys)
  obj : ∀ ms t, (ms.map Prod.fst).Nodup → (∀ ns, t = .obj ns → (ns.map Prod.fst).Nodup) →
    (eq (.obj ms) t = true ↔ ∃ ns, t = .obj ns ∧ ms.length = ns.length ∧
      ∀ m ∈ ms, ∃ b, ns.lookup m.1 = some b ∧ eq m.2 b = true)

/-- **A comparison by kinds, items and members is equality of views.** -/
theorem Compares.iff_view [BEq S] [LawfulBEq S] [DecidableEq S]
    {eq : Tree W S → Tree W S → Bool} {p : W → Bool} {f : W → X} (h : Compares eq p f) {g : S → T} {rank : T → K} (hg : Function.Injective g)
    (hrank : Function.Injective rank) {a b : Tree W S} (hp : a.allScalars p = true)
    (ha : a.keysNodup = true) (hb : b.keysNodup = true) :
    eq a b = true ↔ a.view f g rank = b.view f g rank := by
  induction a using Tree.ind generalizing b with
  | scalar w =>
      rw [h.scalar w b hp]
      cases b <;> simp [eq_comm]
  | str s =>
      rw [h.str s b]
      cases b <;> simp [hg.eq_iff, eq_comm]
  | arr items ih =>
      rw [allScalars_arr, List.all_eq_true] at hp
      rw [h.arr items b hp]
      rw [keysNodup_arr, List.all_eq_true] at ha
      cases b with
      | arr ys =>
          rw [keysNodup_arr, List.all_eq_true] at hb
          simp only [arr.injEq, exists_eq_left', view_arr]
          rw [← List.forall₂_eq_eq_eq, List.forall₂_map_left_iff, List.forall₂_map_right_iff]
          induction items generalizing ys with
          | nil => cases ys <;> simp
          | cons x xs ihx =>
              cases ys with
              | nil => simp
              | cons y ys =>
                  rw [List.forall₂_cons, List.forall₂_cons,
                    ih x List.mem_cons_self (hp x List.mem_cons_self) (ha x List.mem_cons_self)
                      (hb y List.mem_cons_self),
                    ihx (fun t ht => ih t (List.mem_cons_of_mem x ht))
                      (fun t ht => hp t (List.mem_cons_of_mem x ht))
                      (fun t ht => ha t (List.mem_cons_of_mem x ht)) ys
                      (fun t ht => hb t (List.mem_cons_of_mem y ht))]
      | _ => simp
  | obj members ih =>
      rw [allScalars_obj, List.all_eq_true] at hp
      rw [keysNodup_obj, Bool.and_eq_true, decide_eq_true_eq, List.all_eq_true] at ha
      cases b with
      | obj ns =>
          rw [keysNodup_obj, Bool.and_eq_true, decide_eq_true_eq, List.all_eq_true] at hb
          have hns : ∀ ns', Tree.obj ns = Tree.obj ns' → (ns'.map Prod.fst).Nodup := by
            intro ns' heq
            rw [← Tree.obj.inj heq]
            exact hb.1
          have hkeys : ((members.map fun m => (g m.1, view f g rank m.2)).map Prod.fst).Nodup := by
            have heq : (members.map fun m => (g m.1, view f g rank m.2)).map Prod.fst =
                (members.map Prod.fst).map g := by rw [List.map_map, List.map_map]; rfl
            rw [heq]
            exact ha.1.map hg
          rw [h.obj members _ ha.1 hns, view_obj, view_obj, Tree.obj.injEq,
            sortMembers_eq_iff hrank hkeys, List.length_map, List.length_map, List.forall_mem_map]
          simp only [Tree.obj.injEq, exists_eq_left']
          refine and_congr_right fun _ => forall₂_congr fun m hm => ?_
          constructor
          · rintro ⟨v, hv, heq⟩
            rw [lookup_eq_some_iff hb.1] at hv
            rw [ih m hm (hp m hm) (ha.2 m hm) (hb.2 _ hv)] at heq
            rw [heq]
            exact List.mem_map.mpr ⟨_, hv, rfl⟩
          · intro hmem
            obtain ⟨n, hn, heq⟩ := List.mem_map.mp hmem
            obtain ⟨hkey, hview⟩ := Prod.mk.inj heq
            refine ⟨n.2, ?_, ?_⟩
            · rw [lookup_eq_some_iff hb.1, ← hg hkey]
              exact hn
            · rw [ih m hm (hp m hm) (ha.2 m hm) (hb.2 n hn), hview]
      | _ =>
          rw [h.obj members _ ha.1 (by simp)]
          simp

/-! ## Members found -/

section Members
variable (f : W → X) (g : S → T) (rank : T → K)

/-- The members of an object, seen by their views. -/
def viewMembers (ms : List (S × Tree W S)) : List (T × Tree X T) :=
  ms.map fun m => (g m.1, view f g rank m.2)

variable {f g rank}

/-- A key's value is found and seen as `v` when the member is among those seen. -/
theorem lookup_view_iff [BEq S] [LawfulBEq S] (hg : Function.Injective g)
    {ns : List (S × Tree W S)} (hns : (ns.map Prod.fst).Nodup) {k : S} {v : Tree X T} :
    (∃ b, ns.lookup k = some b ∧ view f g rank b = v) ↔ (g k, v) ∈ viewMembers f g rank ns := by
  rw [viewMembers, List.mem_map]
  constructor
  · rintro ⟨b, hb, rfl⟩
    exact ⟨_, (lookup_eq_some_iff hns).mp hb, rfl⟩
  · rintro ⟨n, hn, heq⟩
    obtain ⟨hkey, rfl⟩ := Prod.mk.inj heq
    exact ⟨n.2, (lookup_eq_some_iff hns).mpr (by rw [← hg hkey]; exact hn), rfl⟩

/-- Objects seen alike have the same members. -/
theorem mem_viewMembers_iff {W' S' : Type} {f' : W' → X} {g' : S' → T} {ms : List (S × Tree W S)}
    {ns : List (S' × Tree W' S')} (h : view f g rank (.obj ms) = view f' g' rank (.obj ns))
    (m : T × Tree X T) : m ∈ viewMembers f g rank ms ↔ m ∈ viewMembers f' g' rank ns := by
  rw [view_obj, view_obj, Tree.obj.injEq] at h
  rw [viewMembers, viewMembers, ← mem_sortMembers rank, h, mem_sortMembers]

end Members

end SwarmAuth.Json.Tree
