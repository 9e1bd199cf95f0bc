import Mathlib.Data.List.Pairwise
import Mathlib.Algebra.Order.Field.Rat
import Mathlib.Tactic.Common

/-!
# Runs

A machine takes inputs one after another and logs at most one entry a step. An invariant
over the clock, the state and the log so far, once every step preserves it, holds after
every run whose clock reads do not decrease.

## Main definitions

* `final`, `log` — where a run ends and what it logged.
* `Along`, `AlongLog` — every step of the run meets a condition on the state before it, or on
  that and the log.
* `log_invariant`, `log_invariant_of_along` — the invariant rule.
-/
namespace SwarmAuth.Runs
variable {σ ι α : Type} (step : σ → ι → Option α × σ)

/-- The state after a run. -/
def final : σ → List ι → σ
  | s, [] => s
  | s, i :: is => final (step s i).2 is

/-- What a run logs. -/
def log : σ → List ι → List α
  | _, [] => []
  | s, i :: is => (step s i).1.toList ++ log (step s i).2 is

/-- Every step of the run meets the condition. -/
def Along (P : σ → ι → Prop) : σ → List ι → Prop
  | _, [] => True
  | s, i :: is => P s i ∧ Along P (step s i).2 is

/-- Every step of the run meets the condition on the log and the state before it. -/
def AlongLog (P : List α → σ → ι → Prop) : List α → σ → List ι → Prop
  | _, _, [] => True
  | h, s, i :: is => P h s i ∧ AlongLog P (h ++ (step s i).1.toList) (step s i).2 is

theorem along_true (s : σ) (is : List ι) : Along step (fun _ _ => True) s is := by
  induction is generalizing s with
  | nil => trivial
  | cons i is ih => exact ⟨trivial, ih _⟩

variable {step}

/-- A condition on the state alone. -/
theorem alongLog_of_along {P : σ → ι → Prop} {s : σ} {is : List ι} (hP : Along step P s is)
    (h : List α) : AlongLog step (fun _ => P) h s is := by
  induction is generalizing s h with
  | nil => trivial
  | cons i is ih => exact ⟨hP.1, ih hP.2 _⟩

theorem final_append (s : σ) (before after : List ι) :
    final step s (before ++ after) = final step (final step s before) after := by
  induction before generalizing s with
  | nil => rfl
  | cons i is ih => exact ih _

/-- Every step is the step after some part of the run. -/
theorem along_iff {P : σ → ι → Prop} {s : σ} {is : List ι} : Along step P s is ↔
    ∀ before i after, is = before ++ i :: after → P (final step s before) i := by
  induction is generalizing s with
  | nil => simp [Along]
  | cons j is ih =>
      rw [Along, ih]
      constructor
      · intro h before i after heq
        cases before with
        | nil =>
            obtain ⟨rfl, -⟩ := List.cons.inj heq
            exact h.1
        | cons k before =>
            obtain ⟨rfl, htail⟩ := List.cons.inj heq
            exact h.2 before i after htail
      · intro h
        exact ⟨h [] j is rfl, fun before i after heq => h (j :: before) i after (heq ▸ rfl)⟩

/-- When what a step logs does not depend on the state. -/
theorem log_eq_filterMap {f : ι → Option α} (h : ∀ s i, (step s i).1 = f i) (s : σ) (is : List ι) :
    log step s is = is.filterMap f := by
  induction is generalizing s with
  | nil => rfl
  | cons i is ih =>
      rw [log, ih, h, List.filterMap_cons]
      cases f i <;> rfl

/-- What is logged was emitted by a step. -/
theorem mem_log {s : σ} {is : List ι} {a : α} (h : a ∈ log step s is) :
    ∃ s' i, i ∈ is ∧ (step s' i).1 = some a := by
  induction is generalizing s with
  | nil => exact absurd h List.not_mem_nil
  | cons i is ih =>
      rw [log, List.mem_append] at h
      rcases h with hhead | htail
      · exact ⟨s, i, List.mem_cons_self, Option.mem_toList.mp hhead⟩
      · obtain ⟨s', j, hj, hstep⟩ := ih htail
        exact ⟨s', j, List.mem_cons_of_mem i hj, hstep⟩

variable {time : ι → ℚ} {P : List α → σ → ι → Prop} (Inv : ℚ → σ → List α → Prop)

/-- From a state where the invariant holds, it holds after every run, at the last clock
read. -/
theorem invariant_of_alongLog
    (hstep : ∀ now s h i, Inv now s h → P h s i → now ≤ time i →
      Inv (time i) (step s i).2 (h ++ (step s i).1.toList))
    (is : List ι) {now : ℚ} {s : σ} {h : List α} (hinv : Inv now s h) (hP : AlongLog step P h s is)
    (hclock : ((now :: is.map time).Pairwise (· ≤ ·))) :
    Inv ((is.map time).getLastD now) (final step s is) (h ++ log step s is) := by
  induction is generalizing now s h with
  | nil =>
      rw [log, List.append_nil]
      exact hinv
  | cons i is ih =>
      rw [List.map_cons, List.pairwise_cons] at hclock
      have hle : now ≤ time i := hclock.1 (time i) List.mem_cons_self
      have hnext := hstep now s h i hinv hP.1 hle
      rw [log, ← List.append_assoc, List.map_cons, List.getLastD_cons]
      exact ih hnext hP.2 hclock.2

/-- **The invariant rule**: what holds of the empty log at any time, and is preserved by
every step, holds after every run. -/
theorem log_invariant_of_along
    (hstep : ∀ now s h i, Inv now s h → P h s i → now ≤ time i →
      Inv (time i) (step s i).2 (h ++ (step s i).1.toList))
    {s : σ} (hinit : ∀ now, Inv now s []) (is : List ι) (hP : AlongLog step P [] s is)
    (hclock : (is.map time).Pairwise (· ≤ ·)) :
    Inv ((is.map time).getLastD 0) (final step s is) (log step s is) := by
  cases is with
  | nil => exact hinit 0
  | cons i is =>
      -- start the clock at the first read
      have hall : (time i :: (i :: is).map time).Pairwise (· ≤ ·) := by
        rw [List.pairwise_cons]
        refine ⟨?_, hclock⟩
        intro t ht
        rcases List.mem_cons.mp ht with heq | hmem
        · exact heq.ge
        · exact (List.pairwise_cons.mp hclock).1 t hmem
      have hrun := invariant_of_alongLog Inv hstep (i :: is) (hinit (time i)) hP hall
      rw [List.map_cons, List.getLastD_cons] at hrun ⊢
      exact hrun

/-! ### Conditions on the state alone -/

theorem invariant_of_step {P : σ → ι → Prop}
    (hstep : ∀ now s h i, Inv now s h → P s i → now ≤ time i →
      Inv (time i) (step s i).2 (h ++ (step s i).1.toList))
    (is : List ι) {now : ℚ} {s : σ} {h : List α} (hinv : Inv now s h) (hP : Along step P s is)
    (hclock : ((now :: is.map time).Pairwise (· ≤ ·))) :
    Inv ((is.map time).getLastD now) (final step s is) (h ++ log step s is) :=
  invariant_of_alongLog Inv hstep is hinv (alongLog_of_along hP h) hclock

theorem log_invariant {P : σ → ι → Prop}
    (hstep : ∀ now s h i, Inv now s h → P s i → now ≤ time i →
      Inv (time i) (step s i).2 (h ++ (step s i).1.toList))
    {s : σ} (hinit : ∀ now, Inv now s []) (is : List ι) (hP : Along step P s is)
    (hclock : (is.map time).Pairwise (· ≤ ·)) :
    Inv ((is.map time).getLastD 0) (final step s is) (log step s is) :=
  log_invariant_of_along Inv hstep hinit is (alongLog_of_along hP []) hclock

end SwarmAuth.Runs
