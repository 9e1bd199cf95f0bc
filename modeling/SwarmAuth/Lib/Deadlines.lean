import Mathlib.Algebra.Order.Field.Rat
import Mathlib.Tactic.Common

/-!
# Deadlines

A store remembers keys, each until a deadline. It is seen as the times at which it
remembers a key, and compared with the requests made of it: each asks for a key up to a
time, and a later request never takes back an earlier one.

## Main definitions

* `Requested` — some request for the key reaches past the time.
* `Keeps`, `Faithful` — the store remembers at least, or exactly, what was requested.
* `Keeps.extend`, `Faithful.extend` — one more request.
-/
namespace SwarmAuth.Deadlines
variable {K : Type}

/-- The times at which a store remembers a key. -/
abbrev Memory (K : Type) := K → ℚ → Prop

/-- Some request for the key reaches past the time. -/
def Requested (h : List (K × ℚ)) : Memory K := fun k t => ∃ d, (k, d) ∈ h ∧ t < d

/-- From `now` on the store remembers what was requested. -/
def Keeps (now : ℚ) (live : Memory K) (h : List (K × ℚ)) : Prop :=
  ∀ k t, now ≤ t → Requested h k t → live k t

/-- From `now` on the store remembers exactly what was requested. -/
def Faithful (now : ℚ) (live : Memory K) (h : List (K × ℚ)) : Prop :=
  ∀ k t, now ≤ t → (live k t ↔ Requested h k t)

theorem not_requested_nil (k : K) (t : ℚ) : ¬ Requested [] k t := by
  intro h
  obtain ⟨d, hmem, -⟩ := h
  exact absurd hmem List.not_mem_nil

/-- One more request. -/
theorem requested_concat {h : List (K × ℚ)} {k : K} {d : ℚ} {k' : K} {t : ℚ} :
    Requested (h ++ [(k, d)]) k' t ↔ Requested h k' t ∨ k' = k ∧ t < d := by
  simp only [Requested, List.mem_append, List.mem_singleton, Prod.mk.injEq]
  constructor
  · intro hr
    obtain ⟨e, hmem | ⟨hk, rfl⟩, hlt⟩ := hr
    · exact Or.inl ⟨e, hmem, hlt⟩
    · exact Or.inr ⟨hk, hlt⟩
  · intro hr
    rcases hr with ⟨e, hmem, hlt⟩ | ⟨hk, hlt⟩
    · exact ⟨e, Or.inl hmem, hlt⟩
    · exact ⟨d, Or.inr ⟨hk, rfl⟩, hlt⟩

section Steps
variable {now now' : ℚ} {live live' : Memory K} {h : List (K × ℚ)}

/-- Time passes, and nothing live is dropped. -/
theorem Keeps.mono (hk : Keeps now live h) (hle : now ≤ now')
    (hlive : ∀ k t, now' ≤ t → live k t → live' k t) : Keeps now' live' h :=
  fun k t ht hr => hlive k t ht (hk k t (hle.trans ht) hr)

theorem Faithful.mono (hf : Faithful now live h) (hle : now ≤ now')
    (hlive : ∀ k t, now' ≤ t → (live' k t ↔ live k t)) : Faithful now' live' h :=
  fun k t ht => (hlive k t ht).trans (hf k t (hle.trans ht))

/-- **A request keeps the promise** when it drops nothing live and its key lives long
enough. -/
theorem Keeps.extend {k : K} {d : ℚ} (hk : Keeps now live h) (hle : now ≤ now')
    (hlive : ∀ k' t, now' ≤ t → live k' t → live' k' t)
    (hkey : ∀ t, now' ≤ t → t < d → live' k t) : Keeps now' live' (h ++ [(k, d)]) := by
  intro k' t ht hr
  rcases requested_concat.mp hr with hold | ⟨rfl, hlt⟩
  · exact hlive k' t ht (hk k' t (hle.trans ht) hold)
  · exact hkey t ht hlt

/-- **A request is remembered exactly** when it adds its own times and no others. -/
theorem Faithful.extend {k : K} {d : ℚ} (hf : Faithful now live h) (hle : now ≤ now')
    (hlive : ∀ k' t, now' ≤ t → (live' k' t ↔ live k' t ∨ k' = k ∧ t < d)) :
    Faithful now' live' (h ++ [(k, d)]) := by
  intro k' t ht
  rw [hlive k' t ht, requested_concat, hf k' t (hle.trans ht)]

end Steps

end SwarmAuth.Deadlines
