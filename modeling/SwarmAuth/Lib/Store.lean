import Mathlib.Logic.Function.Basic
import Mathlib.Data.List.Nodup

/-!
# Stores

A store is the value, if any, under each key. Entries with distinct keys that are written
one after another each end up under their key, and nothing else changes.

## Main definitions

* `updateAll` — write several entries.
* `updateAll_of_mem`, `updateAll_of_not_mem` — what is there afterwards.
* `AllOrNothing` — a change that charges every record it names, or none.
* `modifyAll` — commands on keys, one after another; `modifyAll_apply`: a key sees its own.
-/
namespace SwarmAuth.Store
variable {K V α : Type} [DecidableEq K]

/-- Write entries one after another. -/
def updateAll (s : K → Option V) (entries : List (K × V)) : K → Option V :=
  entries.foldl (fun s e => Function.update s e.1 (some e.2)) s

theorem updateAll_cons (s : K → Option V) (e : K × V) (entries : List (K × V)) :
    updateAll s (e :: entries) = updateAll (Function.update s e.1 (some e.2)) entries := rfl

/-- Other keys keep their value. -/
theorem updateAll_of_not_mem (s : K → Option V) (entries : List (K × V)) {k : K}
    (h : k ∉ entries.map Prod.fst) : updateAll s entries k = s k := by
  induction entries generalizing s with
  | nil => rfl
  | cons e entries ih =>
      rw [List.map_cons, List.mem_cons, not_or] at h
      rw [updateAll_cons, ih _ h.2, Function.update_of_ne h.1]

/-- A written entry is there. -/
theorem updateAll_of_mem (s : K → Option V) {entries : List (K × V)}
    (hnodup : (entries.map Prod.fst).Nodup) {e : K × V} (h : e ∈ entries) :
    updateAll s entries e.1 = some e.2 := by
  induction entries generalizing s with
  | nil => exact absurd h List.not_mem_nil
  | cons d entries ih =>
      rw [List.map_cons, List.nodup_cons] at hnodup
      rw [updateAll_cons]
      rcases List.mem_cons.mp h with rfl | hmem
      · rw [updateAll_of_not_mem _ _ hnodup.1, Function.update_self]
      · exact ih _ hnodup.2 hmem

/-! ## All or nothing -/

/-- A change of the store that is made (`ok`) or refused. Made, it leaves these values under
these keys, once each; made or refused, it keeps whatever else is live and adds nothing. -/
structure AllOrNothing (live : V → Prop) (ok : Prop) (keys : List K) (charges : List (K × V))
    (s s' : K → Option V) : Prop where
  named : ok → charges.map Prod.fst = keys ∧ keys.Nodup
  charged : ok → ∀ c ∈ charges, s' c.1 = some c.2
  kept : ∀ k, ok → k ∉ keys → ∀ v, s k = some v → live v → s' k = some v
  refused : ¬ ok → ∀ k v, s k = some v → live v → s' k = some v
  added : ∀ k v, s' k = some v → s k = some v ∨ ok ∧ (k, v) ∈ charges

omit [DecidableEq K] in
/-- A refused change that drops at most what is not live. -/
theorem AllOrNothing.of_refused {live : V → Prop} {ok : Prop} {keys : List K}
    {charges : List (K × V)} {s s' : K → Option V} (hok : ¬ ok)
    (hkept : ∀ k v, s k = some v → live v → s' k = some v)
    (hadded : ∀ k v, s' k = some v → s k = some v) : AllOrNothing live ok keys charges s s' where
  named h := absurd h hok
  charged h := absurd h hok
  kept _ h := absurd h hok
  refused _ := hkept
  added k v h := Or.inl (hadded k v h)

/-- Writing values under distinct keys, into a store that keeps what is live. -/
theorem AllOrNothing.of_made {live : V → Prop} {ok : Prop} {keys : List K}
    {charges : List (K × V)} {s s' : K → Option V} (hok : ok) (hnamed : charges.map Prod.fst = keys)
    (hnodup : keys.Nodup) (hcharged : ∀ c ∈ charges, s' c.1 = some c.2)
    (hkept : ∀ k, k ∉ keys → ∀ v, s k = some v → live v → s' k = some v)
    (hadded : ∀ k, k ∉ keys → ∀ v, s' k = some v → s k = some v) :
    AllOrNothing live ok keys charges s s' where
  named _ := ⟨hnamed, hnodup⟩
  charged _ := hcharged
  kept k _ := hkept k
  refused h := absurd hok h
  added k v h := by
    by_cases hk : k ∈ keys
    · rw [← hnamed] at hk
      obtain ⟨c, hc, rfl⟩ := List.mem_map.mp hk
      obtain rfl := Option.some.inj ((hcharged c hc).symm.trans h)
      exact Or.inr ⟨hok, hc⟩
    · exact Or.inl (hadded k hk v h)

/-! ## Commands -/

/-- Run commands on the values of a store, one after another. -/
def modifyAll (s : K → α) (commands : List (K × (α → α))) : K → α :=
  commands.foldl (fun s c => Function.update s c.1 (c.2 (s c.1))) s

/-- A key sees the commands on it, in order. -/
theorem modifyAll_apply (s : K → α) (commands : List (K × (α → α))) (k : K) :
    modifyAll s commands k =
      (commands.filter fun c => c.1 = k).foldl (fun a c => c.2 a) (s k) := by
  induction commands generalizing s with
  | nil => rfl
  | cons c commands ih =>
      have hcons : modifyAll s (c :: commands) =
          modifyAll (Function.update s c.1 (c.2 (s c.1))) commands := rfl
      rw [hcons, ih, List.filter_cons]
      by_cases hk : c.1 = k
      · subst hk
        rw [Function.update_self, if_pos (by simp), List.foldl_cons]
      · rw [Function.update_of_ne (Ne.symm hk), if_neg (by simpa using hk)]

/-- Other keys keep their value. -/
theorem modifyAll_of_not_mem (s : K → α) (commands : List (K × (α → α))) {k : K}
    (h : k ∉ commands.map Prod.fst) : modifyAll s commands k = s k := by
  have hnone : (commands.filter fun c => c.1 = k) = [] := by
    rw [List.filter_eq_nil_iff]
    intro c hc hk
    exact h (List.mem_map.mpr ⟨c, hc, of_decide_eq_true hk⟩)
  rw [modifyAll_apply, hnone, List.foldl_nil]

/-- In a list with distinct keys, one element has the key of a given one. -/
theorem filter_key_eq {f : α → K} {l : List α} (hnodup : (l.map f).Nodup) {a : α} (ha : a ∈ l) :
    (l.filter fun b => f b = f a) = [a] := by
  induction l with
  | nil => exact absurd ha List.not_mem_nil
  | cons b l ih =>
      rw [List.map_cons, List.nodup_cons] at hnodup
      rcases List.mem_cons.mp ha with rfl | hmem
      · have hnone : (l.filter fun b => f b = f a) = [] := by
          rw [List.filter_eq_nil_iff]
          intro b hb hk
          exact hnodup.1 (List.mem_map.mpr ⟨b, hb, of_decide_eq_true hk⟩)
        rw [List.filter_cons_of_pos (by simp), hnone]
      · have hne : f b ≠ f a := by
          intro heq
          exact hnodup.1 (heq ▸ List.mem_map_of_mem hmem)
        rw [List.filter_cons_of_neg (by simpa using hne), ih hnodup.2 hmem]

/-- Of the parts of a list, one has a given key. -/
theorem flatMap_of_key {β : Type} {f : α → K} {g : α → List β} {l : List α}
    (hnodup : (l.map f).Nodup) {a : α} (ha : a ∈ l) :
    (l.flatMap fun b => if f b = f a then g b else []) = g a := by
  have hfilter : (l.flatMap fun b => if f b = f a then g b else []) =
      (l.filter fun b => f b = f a).flatMap g := by
    clear hnodup ha
    induction l with
    | nil => rfl
    | cons b l ih =>
        rw [List.flatMap_cons, List.filter_cons, ih]
        by_cases hb : f b = f a <;> simp [hb]
  rw [hfilter, filter_key_eq hnodup ha, List.flatMap_singleton]

end SwarmAuth.Store
