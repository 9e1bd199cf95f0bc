import Mathlib.Data.List.Pairwise
import Mathlib.Data.List.Nodup
import Mathlib.Logic.Function.Basic

/-!
# Sets ordered by recency

A set in which every member carries the time it was last added. A list presents the set
when it holds exactly the members, the later added before the earlier. Adding puts a
member at the front, and removing takes it out of the list.

## Main definitions

* `Dated` — a set with the time each member was last added.
* `Presents` — the list of the members, most recent first.
* `Presents.add`, `Presents.remove` — adding and removing on both sides.
-/
namespace SwarmAuth.Recency
variable {K : Type}

/-- When each member was last added; a non-member has no time. -/
abbrev Dated (K : Type) := K → Option ℕ

/-- The set without members. -/
def Dated.empty : Dated K := fun _ => none

/-- Every member was added before `now`. -/
def Dated.Before (s : Dated K) (now : ℕ) : Prop := ∀ k t, s k = some t → t < now

/-- The list holds the members, once each, the later added before the earlier. -/
structure Presents (xs : List K) (s : Dated K) : Prop where
  members : ∀ k, k ∈ xs ↔ ∃ t, s k = some t
  latest : xs.Pairwise fun a b => ∀ t u, s a = some t → s b = some u → u < t

theorem Presents.nodup {xs : List K} {s : Dated K} (h : Presents xs s) : xs.Nodup := by
  refine List.Pairwise.imp_of_mem ?_ h.latest
  intro a b ha _ hlt heq
  obtain ⟨t, ht⟩ := (h.members a).mp ha
  exact absurd (hlt t t ht (heq ▸ ht)) (Nat.lt_irrefl t)

theorem presents_nil : Presents [] (Dated.empty : Dated K) := by
  refine ⟨fun k => ?_, List.Pairwise.nil⟩
  simp [Dated.empty]

/-- Only the set without members has no list. -/
theorem Presents.eq_nil_iff {xs : List K} {s : Dated K} (h : Presents xs s) :
    xs = [] ↔ s = Dated.empty := by
  constructor
  · rintro rfl
    funext k
    refine Option.eq_none_iff_forall_ne_some.mpr fun t ht => ?_
    exact absurd ((h.members k).mpr ⟨t, ht⟩) List.not_mem_nil
  · rintro rfl
    refine List.eq_nil_iff_forall_not_mem.mpr fun k hk => ?_
    obtain ⟨t, ht⟩ := (h.members k).mp hk
    exact absurd ht (by simp [Dated.empty])

theorem Dated.before_empty (now : ℕ) : (Dated.empty : Dated K).Before now := by
  intro k t ht
  exact absurd ht (by simp [Dated.empty])

theorem Dated.Before.mono {s : Dated K} {now later : ℕ} (h : s.Before now) (hle : now ≤ later) :
    s.Before later :=
  fun k t ht => Nat.lt_of_lt_of_le (h k t ht) hle

variable [DecidableEq K] {s : Dated K} {now : ℕ}

/-- Add `k` at the time `now`, or renew it. -/
def Dated.add (s : Dated K) (k : K) (now : ℕ) : Dated K := Function.update s k (some now)

/-- Take `k` out. -/
def Dated.remove (s : Dated K) (k : K) : Dated K := Function.update s k none

/-- After an addition the clock has to tick. -/
theorem Dated.Before.add (h : s.Before now) (k : K) : (s.add k now).Before (now + 1) := by
  intro k' t ht
  by_cases hk : k' = k
  · subst hk
    rw [Dated.add, Function.update_self, Option.some.injEq] at ht
    omega
  · rw [Dated.add, Function.update_of_ne hk] at ht
    exact Nat.lt_succ_of_lt (h k' t ht)

theorem Dated.Before.remove (h : s.Before now) (k : K) : (s.remove k).Before now := by
  intro k' t ht
  by_cases hk : k' = k
  · subst hk
    rw [Dated.remove, Function.update_self] at ht
    exact absurd ht (by simp)
  · rw [Dated.remove, Function.update_of_ne hk] at ht
    exact h k' t ht

/-- The members besides `k`, as the list without it. -/
theorem Presents.remove {xs : List K} (h : Presents xs s) (k : K) :
    Presents (xs.filter (· ≠ k)) (s.remove k) := by
  constructor
  · intro k'
    rw [List.mem_filter, decide_eq_true_iff, Dated.remove, h.members]
    by_cases hk : k' = k
    · subst hk
      simp
    · rw [Function.update_of_ne hk]
      exact and_iff_left hk
  · refine List.Pairwise.imp_of_mem ?_ (h.latest.filter _)
    intro a b ha hb hlt
    rw [List.mem_filter, decide_eq_true_iff] at ha hb
    rw [Dated.remove, Function.update_of_ne ha.2, Function.update_of_ne hb.2]
    exact hlt

/-- **An addition goes to the front**, wherever the member was before. -/
theorem Presents.add {xs : List K} (h : Presents xs s) (hnow : s.Before now) (k : K) :
    Presents (k :: xs.filter (· ≠ k)) (s.add k now) := by
  constructor
  · intro k'
    rw [List.mem_cons, List.mem_filter, decide_eq_true_iff, Dated.add, h.members]
    by_cases hk : k' = k
    · subst hk
      simp
    · rw [Function.update_of_ne hk]
      simp [hk]
  · rw [List.pairwise_cons]
    constructor
    · intro b hb t u ht hu
      rw [List.mem_filter, decide_eq_true_iff] at hb
      rw [Dated.add, Function.update_self, Option.some.injEq] at ht
      rw [Dated.add, Function.update_of_ne hb.2] at hu
      exact ht ▸ hnow b u hu
    · refine List.Pairwise.imp_of_mem ?_ (h.latest.filter _)
      intro a b ha hb hlt
      rw [List.mem_filter, decide_eq_true_iff] at ha hb
      rw [Dated.add, Function.update_of_ne ha.2, Function.update_of_ne hb.2]
      exact hlt

/-- The set with the one member `k`. -/
theorem presents_singleton (k : K) (now : ℕ) : Presents [k] (Dated.empty.add k now) :=
  presents_nil.add (Dated.before_empty now) k

end SwarmAuth.Recency
