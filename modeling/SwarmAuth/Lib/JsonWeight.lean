import SwarmAuth.Lib.JsonTree
import Mathlib.Algebra.Order.BigOperators.Group.List
import Mathlib.Algebra.Order.Group.Nat
import Mathlib.Algebra.GroupWithZero.Nat

/-!
# Weights of strings

A weight of strings, added up over a tree, keys included. Reading an object as a map in which
the last member of a key wins makes a tree no heavier, and order does not matter; so a tree
that was written lighter is told from the one it was written from.

## Main definitions

* `Tree.weight` — the sum.
* `weight_canon`, `weight_mapScalars`, `weight_lastWins_le` — what keeps it, or lowers it.
* `weight_mapStrs_le`, `weight_mapStrs_lt` — strings that were made lighter.
-/
namespace SwarmAuth.Json.Tree

variable {W W' S : Type} (f : S → ℕ)

/-- The sum of the strings' weights, keys included. -/
def weight : Tree W S → ℕ :=
  fold (fun _ => 0) f List.sum fun ms => (ms.map fun m => f m.1 + m.2).sum

@[simp] theorem weight_scalar (w : W) : weight f (.scalar w : Tree W S) = 0 := rfl
@[simp] theorem weight_str (s : S) : weight f (.str s : Tree W S) = f s := rfl
@[simp] theorem weight_arr (ts : List (Tree W S)) :
    weight f (.arr ts) = (ts.map (weight f)).sum := by simp [weight]
@[simp] theorem weight_obj (ms : List (S × Tree W S)) :
    weight f (.obj ms) = (ms.map fun m => f m.1 + weight f m.2).sum := by
  simp [weight, Function.comp_def]

theorem weight_mapScalars (g : W → W') (t : Tree W S) : (t.mapScalars g).weight f = t.weight f := by
  induction t using Tree.ind with
  | scalar w => rfl
  | str s => rfl
  | arr items ih =>
      rw [mapScalars_arr, weight_arr, weight_arr, List.map_map]
      exact congrArg List.sum (List.map_congr_left ih)
  | obj members ih =>
      rw [mapScalars_obj, weight_obj, weight_obj, List.map_map]
      refine congrArg List.sum (List.map_congr_left fun m hm => ?_)
      simp only [Function.comp_apply, ih m hm]

theorem weight_canon {K : Type} [LinearOrder K] (rank : S → K) (t : Tree W S) :
    (t.canon rank).weight f = t.weight f := by
  induction t using Tree.ind with
  | scalar w => rfl
  | str s => rfl
  | arr items ih =>
      rw [canon_arr, weight_arr, weight_arr, List.map_map]
      exact congrArg List.sum (List.map_congr_left ih)
  | obj members ih =>
      rw [canon_obj, weight_obj, weight_obj, ((sortMembers_perm rank _).map _).sum_eq, List.map_map]
      refine congrArg List.sum (List.map_congr_left fun m hm => ?_)
      simp only [Function.comp_apply, ih m hm]

section LastWins
variable [DecidableEq S]

/-- Assigning a key adds the member's weight at most. -/
theorem sum_upsert_le {ms : List (S × Tree W S)} (h : (ms.map Prod.fst).Nodup) (m : S × Tree W S) :
    ((upsert ms m).map fun n => f n.1 + weight f n.2).sum ≤
      (ms.map fun n => f n.1 + weight f n.2).sum + (f m.1 + weight f m.2) := by
  rw [upsert]
  split_ifs with hm
  · clear hm
    induction ms with
    | nil => simp
    | cons n ms ih =>
        rw [List.map_cons, List.nodup_cons] at h
        rw [List.map_cons, List.map_cons, List.map_cons, List.sum_cons, List.sum_cons]
        by_cases hkey : n.1 = m.1
        · have hrest : ms.map (fun n => if n.1 = m.1 then m else n) = ms := by
            refine (List.map_congr_left fun k hk => ?_).trans (List.map_id ms)
            rw [if_neg, id]
            rintro hsame
            exact h.1 (hkey.trans hsame.symm ▸ List.mem_map_of_mem hk)
          rw [if_pos hkey, hrest]
          omega
        · rw [if_neg hkey]
          have hrest := ih h.2
          omega
  · simp

theorem sum_foldl_upsert_le {ms acc : List (S × Tree W S)} (h : (acc.map Prod.fst).Nodup) :
    ((ms.foldl upsert acc).map fun n => f n.1 + weight f n.2).sum ≤
      (acc.map fun n => f n.1 + weight f n.2).sum + (ms.map fun n => f n.1 + weight f n.2).sum := by
  induction ms generalizing acc with
  | nil => simp
  | cons m ms ih =>
      have hone := sum_upsert_le f h m
      have hnodup : (([m].foldl upsert acc).map Prod.fst).Nodup := nodup_foldl_upsert h
      have hrest := @ih (upsert acc m) hnodup
      rw [List.foldl_cons, List.map_cons, List.sum_cons]
      omega

theorem weight_lastWins_le (t : Tree W S) : t.lastWins.weight f ≤ t.weight f := by
  induction t using Tree.ind with
  | scalar w => exact le_rfl
  | str s => exact le_rfl
  | arr items ih =>
      rw [lastWins_arr, weight_arr, weight_arr, List.map_map]
      exact List.sum_le_sum ih
  | obj members ih =>
      have hassign := @sum_foldl_upsert_le _ _ f _ (members.map fun m => (m.1, lastWins m.2)) []
        List.nodup_nil
      rw [lastWins_obj, weight_obj, weight_obj, assign]
      refine hassign.trans ?_
      rw [List.map_nil, List.sum_nil, zero_add, List.map_map]
      exact List.sum_le_sum fun m hm => Nat.add_le_add_left (ih m hm) _

end LastWins

section MapStrs
variable {f} {g : S → S}

theorem weight_mapStrs_le (hg : ∀ s, f (g s) ≤ f s) (t : Tree W S) :
    (t.mapStrs g).weight f ≤ t.weight f := by
  induction t using Tree.ind with
  | scalar w => exact le_rfl
  | str s => exact hg s
  | arr items ih =>
      rw [mapStrs_arr, weight_arr, weight_arr, List.map_map]
      exact List.sum_le_sum ih
  | obj members ih =>
      rw [mapStrs_obj, weight_obj, weight_obj, List.map_map]
      exact List.sum_le_sum fun m hm => Nat.add_le_add (hg m.1) (ih m hm)

/-- A tree with a string that is made lighter is made lighter. -/
theorem weight_mapStrs_lt {q : S → Bool} (hg : ∀ s, f (g s) ≤ f s)
    (hlt : ∀ s, q s = false → f (g s) < f s) {t : Tree W S} (h : t.allStrs q = false) :
    (t.mapStrs g).weight f < t.weight f := by
  induction t using Tree.ind with
  | scalar w => cases h
  | str s => exact hlt s h
  | arr items ih =>
      rw [allStrs_arr, List.all_eq_false] at h
      obtain ⟨t, ht, hbad⟩ := h
      rw [mapStrs_arr, weight_arr, weight_arr, List.map_map]
      exact List.sum_lt_sum _ _ (fun u _ => weight_mapStrs_le hg u)
        ⟨t, ht, ih t ht (by simpa using hbad)⟩
  | obj members ih =>
      rw [allStrs_obj, List.all_eq_false] at h
      obtain ⟨m, hm, hbad⟩ := h
      rw [mapStrs_obj, weight_obj, weight_obj, List.map_map]
      refine List.sum_lt_sum _ _ (fun n _ => Nat.add_le_add (hg n.1) (weight_mapStrs_le hg n.2))
        ⟨m, hm, ?_⟩
      cases hkey : q m.1 with
      | true =>
          rw [hkey, Bool.true_and] at hbad
          exact Nat.add_lt_add_of_le_of_lt (hg m.1) (ih m hm (by simpa using hbad))
      | false => exact Nat.add_lt_add_of_lt_of_le (hlt m.1 hkey) (weight_mapStrs_le hg m.2)

end MapStrs
end SwarmAuth.Json.Tree
