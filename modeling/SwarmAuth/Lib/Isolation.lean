import SwarmAuth.Lib.Runs
import Mathlib.Data.Set.Lattice
import Mathlib.Order.CompletePartialOrder

/-!
# Isolation

A machine over a store takes inputs, and each input has its own keys: it changes no others,
and what it answers and leaves there depends on no others. Inputs that share no key with a
part of the store can be left out of a run: whoever looks only at that part, and at the
inputs that use it, sees the same.

## Main definitions

* `Local` — an input uses only its keys.
* `answers`, `answers_filter` — the run without the inputs that use other keys.
-/
namespace SwarmAuth.Isolation
variable {K V ι β : Type}

/-- Each input changes only its keys, and depends only on them. -/
structure Local (step : (K → V) → ι → β × (K → V)) (keys : ι → Set K) : Prop where
  frame : ∀ s i k, k ∉ keys i → (step s i).2 k = s k
  answer : ∀ s s' i, (∀ k ∈ keys i, s k = s' k) → (step s i).1 = (step s' i).1
  value : ∀ s s' i, (∀ k ∈ keys i, s k = s' k) → ∀ k ∈ keys i, (step s i).2 k = (step s' i).2 k

/-- The step, with the answer to some inputs logged. -/
def watch (step : (K → V) → ι → β × (K → V)) (keep : ι → Bool) (s : K → V) (i : ι) :
    Option β × (K → V) := (if keep i then some (step s i).1 else none, (step s i).2)

/-- The answers to some of the inputs of a run. -/
def answers (step : (K → V) → ι → β × (K → V)) (keep : ι → Bool) (s : K → V) (is : List ι) : List β :=
  Runs.log (watch step keep) s is

/-- The store after a run. -/
def final (step : (K → V) → ι → β × (K → V)) (s : K → V) (is : List ι) : K → V :=
  is.foldl (fun s i => (step s i).2) s

variable {step : (K → V) → ι → β × (K → V)} {keys : ι → Set K} {keep : ι → Bool} {P : Set K}
  {s s' : K → V} {is : List ι}

/-- Stores that agree on a part, agree there after an input that uses only it. -/
theorem Local.agree (h : Local step keys) {i : ι} (hi : keys i ⊆ P) (hs : ∀ k ∈ P, s k = s' k) :
    (step s i).1 = (step s' i).1 ∧ ∀ k ∈ P, (step s i).2 k = (step s' i).2 k := by
  have hown : ∀ k ∈ keys i, s k = s' k := fun k hk => hs k (hi hk)
  refine ⟨h.answer s s' i hown, fun k hk => ?_⟩
  by_cases hki : k ∈ keys i
  · exact h.value s s' i hown k hki
  · rw [h.frame s i k hki, h.frame s' i k hki, hs k hk]

/-- **The other inputs can be left out.** -/
theorem Local.answers_filter (h : Local step keys) (hkeep : ∀ i ∈ is, keep i = true → keys i ⊆ P)
    (hdrop : ∀ i ∈ is, keep i = false → Disjoint (keys i) P) (hs : ∀ k ∈ P, s k = s' k) :
    answers step keep s is = answers step keep s' (is.filter keep) ∧
      ∀ k ∈ P, final step s is k = final step s' (is.filter keep) k := by
  induction is generalizing s s' with
  | nil => exact ⟨rfl, hs⟩
  | cons i is ih =>
      rw [List.forall_mem_cons] at hkeep hdrop
      cases hi : keep i with
      | true =>
          obtain ⟨hanswer, hnext⟩ := h.agree (hkeep.1 hi) hs
          obtain ⟨hanswers, hfinal⟩ := ih hkeep.2 hdrop.2 hnext
          rw [List.filter_cons_of_pos hi]
          refine ⟨?_, hfinal⟩
          simp only [answers, Runs.log, watch, hi, if_true, hanswer] at hanswers ⊢
          exact congrArg _ hanswers
      | false =>
          have hnext : ∀ k ∈ P, (step s i).2 k = s' k := by
            intro k hk
            rw [h.frame s i k (Set.disjoint_right.mp (hdrop.1 hi) hk), hs k hk]
          obtain ⟨hanswers, hfinal⟩ := ih hkeep.2 hdrop.2 hnext
          rw [List.filter_cons_of_neg (by simp [hi])]
          refine ⟨?_, hfinal⟩
          simp only [answers, Runs.log, watch, hi] at hanswers ⊢
          exact hanswers

end SwarmAuth.Isolation
