import Mathlib.Algebra.BigOperators.Group.List.Basic
import Mathlib.Algebra.Order.Field.Rat
import Mathlib.Tactic.Linarith

/-!
# Allowances

A meter keeps a record of the charges made on it and refuses a charge that would pass one
of three limits: a number of charges, a total, and a number in any closed interval of a
fixed width. Records saturate: a total counts up to `cap`, and charges older than the
width may be forgotten. A record that covers a history of charges and admits one more
keeps that history within the limits.

## Main definitions

* `Charge`, `Limits`, `Respects` — histories and the limits they respect.
* `Record`, `Covers` — a meter's record, and that it accounts for a history.
* `Charged`, `Retains` — how a record may change.
* `Respects.snoc`, `Covers.snoc` — an admitted charge.
-/
namespace SwarmAuth.Allowance

/-- An amount charged at a time. -/
structure Charge where
  amount : ℚ
  time : ℚ
  deriving DecidableEq

/-- Limits on the charges of a history. -/
structure Limits where
  calls : Option ℤ := none
  amount : Option ℚ := none
  rate : Option ℤ := none

/-- The history stays within the limits, in every closed interval of length `width`. -/
structure Respects (width : ℚ) (l : Limits) (h : List Charge) : Prop where
  calls : ∀ n, l.calls = some n → (h.length : ℤ) ≤ n
  amount : ∀ m, l.amount = some m → (h.map Charge.amount).sum ≤ m
  rate : ∀ n, l.rate = some n → ∀ t,
    ((h.countP fun c => t ≤ c.time ∧ c.time ≤ t + width : ℕ) : ℤ) ≤ n

/-- No limit is negative. -/
structure Limits.NonNeg (l : Limits) : Prop where
  calls : ∀ n, l.calls = some n → 0 ≤ n
  amount : ∀ m, l.amount = some m → 0 ≤ m
  rate : ∀ n, l.rate = some n → 0 ≤ n

theorem Respects.nil {width : ℚ} {l : Limits} (hl : l.NonNeg) : Respects width l [] where
  calls := hl.calls
  amount := hl.amount
  rate n hn _ := hl.rate n hn

/-- What is forgotten before `a` does not count from `t` on. -/
theorem countP_filter_le {stamps : List ℚ} {a t : ℚ} (h : a ≤ t) :
    (stamps.filter fun s => a ≤ s).countP (fun s => t ≤ s) = stamps.countP fun s => t ≤ s := by
  rw [List.countP_filter]
  apply List.countP_congr
  intro s _
  have hage : t ≤ s → a ≤ s := fun hts => h.trans hts
  simpa using hage

/-- Without limits there is nothing to respect. -/
theorem Respects.of_none {width : ℚ} (h : List Charge) : Respects width {} h where
  calls _ hn := nomatch hn
  amount _ hm := nomatch hm
  rate _ hn := nomatch hn

/-! ## Records -/

/-- What a meter remembers: how many charges, how much, and when. -/
structure Record where
  calls : ℕ := 0
  spent : ℚ := 0
  stamps : List ℚ := []

section Meter
variable {width cap now now' : ℚ} {l : Limits} {c : Charge} {r r' : Record} {h : List Charge}

/-- At `now` the record accounts for the history, as far as the limits ask. -/
structure Covers (width cap : ℚ) (l : Limits) (now : ℚ) (r : Record) (h : List Charge) : Prop where
  calls : h.length ≤ r.calls
  spent : min (h.map Charge.amount).sum cap ≤ r.spent
  stamps : l.rate ≠ none → ∀ t, now - width ≤ t →
    (h.countP fun c => t ≤ c.time) ≤ r.stamps.countP fun s => t ≤ s
  times : ∀ c ∈ h, c.time ≤ now

/-- `r'` forgets nothing of `r` that matters from `now` on. -/
structure Retains (width cap : ℚ) (l : Limits) (now : ℚ) (r r' : Record) : Prop where
  calls : r.calls ≤ r'.calls
  spent : min r.spent cap ≤ r'.spent
  stamps : l.rate ≠ none → ∀ t, now - width ≤ t →
    (r.stamps.countP fun s => t ≤ s) ≤ r'.stamps.countP fun s => t ≤ s

/-- `r'` is `r` with the charge `c` on it. -/
structure Charged (width cap : ℚ) (l : Limits) (c : Charge) (r r' : Record) : Prop where
  calls : r.calls + 1 ≤ r'.calls
  spent : min (r.spent + c.amount) cap ≤ r'.spent
  stamps : l.rate ≠ none → ∀ t, c.time - width ≤ t →
    (r.stamps.countP fun s => t ≤ s) + (if t ≤ c.time then 1 else 0) ≤
      r'.stamps.countP fun s => t ≤ s

/-- What a meter checks before it charges `r`, given the total it would reach. -/
structure Admits (width : ℚ) (l : Limits) (c : Charge) (r : Record) (total : ℚ) : Prop where
  calls : ∀ n, l.calls = some n → (r.calls : ℤ) + 1 ≤ n
  amount : ∀ m, l.amount = some m → total ≤ m
  rate : ∀ n, l.rate = some n → ((r.stamps.countP fun s => c.time - width ≤ s : ℕ) : ℤ) + 1 ≤ n

/-- Limits that admit a charge are not negative. -/
theorem Admits.nonNeg {total : ℚ} (hadm : Admits width l c r total) (htotal : 0 ≤ total) : l.NonNeg where
  calls n hn := by
    have := hadm.calls n hn
    omega
  amount m hm := htotal.trans (hadm.amount m hm)
  rate n hn := by
    have := hadm.rate n hn
    omega

theorem Covers.nil (hspent : 0 ≤ r.spent) : Covers width cap l now r [] where
  calls := Nat.zero_le _
  spent := (min_le_left _ _).trans hspent
  stamps _ _ _ := Nat.zero_le _
  times := nofun

theorem Retains.refl : Retains width cap l now r r where
  calls := le_rfl
  spent := min_le_left _ _
  stamps _ _ _ := le_rfl

theorem Charged.retains (hc : Charged width cap l c r r') (ha : 0 ≤ c.amount) :
    Retains width cap l c.time r r' where
  calls := (Nat.le_succ _).trans hc.calls
  spent := (min_le_min_right cap (by linarith)).trans hc.spent
  stamps hl t ht := (Nat.le_add_right _ _).trans (hc.stamps hl t ht)

/-- A record keeps covering a history while nothing that matters is forgotten. -/
theorem Covers.retain (hcov : Covers width cap l now r h) (hnow : now ≤ now')
    (hr : Retains width cap l now' r r') : Covers width cap l now' r' h where
  calls := hcov.calls.trans hr.calls
  spent := by
    calc min (h.map Charge.amount).sum cap
        ≤ min r.spent cap := le_min hcov.spent (min_le_right _ _)
      _ ≤ r'.spent := hr.spent
  stamps hl t ht := (hcov.stamps hl t (by linarith)).trans (hr.stamps hl t ht)
  times c hc := (hcov.times c hc).trans hnow

/-- A charged record covers the history with the charge. -/
theorem Covers.snoc (hcov : Covers width cap l now r h) (hnow : now ≤ c.time)
    (hc : Charged width cap l c r r') (ha : 0 ≤ c.amount) :
    Covers width cap l c.time r' (h ++ [c]) where
  calls := by
    rw [List.length_append, List.length_singleton]
    exact (Nat.succ_le_succ hcov.calls).trans hc.calls
  spent := by
    rw [List.map_append, List.sum_append, List.map_singleton, List.sum_singleton]
    have hspent := hcov.spent
    calc min ((h.map Charge.amount).sum + c.amount) cap
        ≤ min (r.spent + c.amount) cap := by
          apply le_min _ (min_le_right _ _)
          by_cases hcap : (h.map Charge.amount).sum ≤ cap
          · rw [min_eq_left hcap] at hspent
            exact (min_le_left _ _).trans (by linarith)
          · rw [min_eq_right (not_le.mp hcap).le] at hspent
            exact (min_le_right _ _).trans (by linarith)
      _ ≤ r'.spent := hc.spent
  stamps hl t ht := by
    rw [List.countP_append, List.countP_singleton]
    have hold := hcov.stamps hl t (by linarith)
    have hnew := hc.stamps hl t ht
    simp only [decide_eq_true_eq] at hold hnew ⊢
    omega
  times := by
    intro d hd
    rcases List.mem_append.mp hd with hmem | hmem
    · exact (hcov.times d hmem).trans hnow
    · rw [List.mem_singleton.mp hmem]

/-- No closed interval of the given width holds more charges than the last `width` before
its last charge. -/
theorem countP_interval_le (hcov : Covers width cap l now r h) (hl : l.rate ≠ none)
    (hnow : now ≤ c.time) {t : ℚ} (ht : c.time ≤ t + width) :
    (h.countP fun d => t ≤ d.time ∧ d.time ≤ t + width) ≤
      r.stamps.countP fun s => c.time - width ≤ s := by
  have hsub : (h.countP fun d => t ≤ d.time ∧ d.time ≤ t + width) ≤
      h.countP fun d => c.time - width ≤ d.time := by
    apply List.countP_mono_left
    intro d _ hd
    simp only [decide_eq_true_eq] at hd ⊢
    linarith [hd.1]
  exact hsub.trans (hcov.stamps hl _ (by linarith))

/-- **An admitted charge respects the limits**, once the record covers the history and the
total limit lies below the cap. -/
theorem Respects.snoc (hres : Respects width l h) (hcov : Covers width cap l now r h)
    (hnow : now ≤ c.time) (hc : Charged width cap l c r r') (hadm : Admits width l c r r'.spent)
    (hcap : ∀ m, l.amount = some m → m < cap) (ha : 0 ≤ c.amount) :
    Respects width l (h ++ [c]) where
  calls n hn := by
    rw [List.length_append, List.length_singleton]
    have := hadm.calls n hn
    have := hcov.calls
    omega
  amount m hm := by
    have hle := (hcov.snoc hnow hc ha).spent.trans (hadm.amount m hm)
    rcases min_le_iff.mp hle with hsum | hbig
    · exact hsum
    · exact absurd (hcap m hm) (not_lt.mpr hbig)
  rate n hn t := by
    rw [List.countP_append, List.countP_singleton]
    by_cases hin : t ≤ c.time ∧ c.time ≤ t + width
    · have hl : l.rate ≠ none := by rw [hn]; exact Option.some_ne_none n
      have hcount := countP_interval_le hcov hl hnow hin.2
      have hrate := hadm.rate n hn
      simp only [hin, decide_true, if_true, and_self]
      omega
    · have hold := hres.rate n hn t
      simp only [hin, decide_false, Bool.false_eq_true, if_false, add_zero]
      exact hold

end Meter
end SwarmAuth.Allowance
