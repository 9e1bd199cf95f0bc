import Mathlib.Data.List.Infix
import Mathlib.Tactic.Common

/-!
# Prefix codes

A code writes each letter of one alphabet as letters of another; in a prefix code the
first letter of a coded text can be told from the text. Such a code keeps prefixes, and
where a letter is written as one that no other letter's code contains, it keeps that letter
at the end of texts too.

## Main definitions

* `PrefixCode` — first letters are told.
* `PrefixCode.prefix_iff`, `PrefixCode.flatMap_inj` — prefixes and texts are told.
* `Mark` — a letter with a sign of its own.
-/
namespace SwarmAuth
variable {α β : Type} {f : α → List β} {p : α → Prop}

/-- On the letters that `p` admits, the first letter of a coded text can be told. -/
structure PrefixCode (f : α → List β) (p : α → Prop) : Prop where
  ne_nil : ∀ a, p a → f a ≠ []
  head : ∀ a b, p a → p b → ∀ s t, f a ++ s = f b ++ t → a = b

namespace PrefixCode

/-- **A prefix code keeps prefixes.** -/
theorem prefix_iff (h : PrefixCode f p) {as bs : List α} (ha : ∀ a ∈ as, p a) (hb : ∀ b ∈ bs, p b) :
    as.flatMap f <+: bs.flatMap f ↔ as <+: bs := by
  constructor
  · intro hpre
    induction as generalizing bs with
    | nil => exact List.nil_prefix
    | cons a as ih =>
        obtain ⟨rest, hrest⟩ := hpre
        cases bs with
        | nil =>
            rw [List.flatMap_cons, List.flatMap_nil, List.append_assoc,
              List.append_eq_nil_iff] at hrest
            exact absurd hrest.1 (h.ne_nil a (ha a List.mem_cons_self))
        | cons b bs =>
            rw [List.flatMap_cons, List.flatMap_cons, List.append_assoc] at hrest
            have hab := h.head a b (ha a List.mem_cons_self) (hb b List.mem_cons_self) _ _ hrest
            subst hab
            rw [List.cons_prefix_cons]
            refine ⟨rfl, ih (fun c hc => ha c (List.mem_cons_of_mem a hc))
              (fun c hc => hb c (List.mem_cons_of_mem a hc)) ⟨rest, ?_⟩⟩
            exact List.append_cancel_left hrest
  · rintro ⟨rest, rfl⟩
    rw [List.flatMap_append]
    exact List.prefix_append _ _

/-- **A prefix code tells texts apart.** -/
theorem flatMap_inj (h : PrefixCode f p) {as bs : List α} (ha : ∀ a ∈ as, p a)
    (hb : ∀ b ∈ bs, p b) : as.flatMap f = bs.flatMap f ↔ as = bs := by
  constructor
  · intro heq
    have hab := (h.prefix_iff ha hb).mp (heq ▸ List.prefix_rfl)
    have hba := (h.prefix_iff hb ha).mp (heq ▸ List.prefix_rfl)
    exact hab.eq_of_length_le hba.length_le
  · intro heq
    rw [heq]

end PrefixCode

/-- The letter `a` is written as the sign `b`, and only its code contains it. -/
structure Mark (f : α → List β) (p : α → Prop) (a : α) (b : β) : Prop where
  code : f a = [b]
  only : ∀ c, p c → b ∈ f c → c = a

/-- A coded text that ends in a letter's own sign is one that ends in the letter. -/
theorem Mark.concat {a : α} {b : β} (hm : Mark f p a b) {as : List α} (ha : ∀ a ∈ as, p a)
    {xs : List β} (hne : ∀ a, p a → f a ≠ []) (h : as.flatMap f = xs ++ [b]) :
    ∃ init, as = init ++ [a] ∧ init.flatMap f = xs := by
  rcases List.eq_nil_or_concat as with hnil | ⟨init, c, hc⟩
  · rw [hnil, List.flatMap_nil] at h
    exact absurd h (by simp)
  · rw [List.concat_eq_append] at hc
    have hpc : p c := ha c (by simp [hc])
    have hlast : b ∈ f c := by
      rw [hc, List.flatMap_append, List.flatMap_singleton] at h
      have hget := congrArg List.getLast? h
      rw [List.getLast?_append_of_ne_nil _ (hne c hpc), List.getLast?_concat] at hget
      exact List.mem_of_getLast? hget
    have hca := hm.only c hpc hlast
    rw [hca] at hc
    refine ⟨init, hc, ?_⟩
    rw [hc, List.flatMap_append, List.flatMap_singleton, hm.code] at h
    exact List.append_cancel_right h

end SwarmAuth
