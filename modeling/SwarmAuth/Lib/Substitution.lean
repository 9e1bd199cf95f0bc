import Mathlib.Data.List.Infix
import Mathlib.Tactic.Common

/-!
# Substitution of first occurrences

The first occurrence of a pattern splits a text. It is where it was meant to be when the
pattern begins with a word that the text before does not contain. A word whose first letter
comes only once in it is found by counting how much of it has been read.

## Main definitions

* `splitFirst`, `splitFirst_append` — the first occurrence, and where it stands.
* `Progress`, `scan` — how much of a word has been read.
* `not_infix_of_scan` — a scan that passes finds no occurrence.
-/
namespace SwarmAuth.Substitution
variable {α : Type} [DecidableEq α]

/-- What stands before and after the first occurrence of a pattern. -/
def splitFirst (pattern : List α) : List α → Option (List α × List α)
  | [] => if pattern = [] then some ([], []) else none
  | c :: text =>
      if pattern <+: c :: text then some ([], (c :: text).drop pattern.length)
      else (splitFirst pattern text).map fun p => (c :: p.1, p.2)

theorem splitFirst_of_prefix {pattern text : List α} (hne : pattern ≠ []) :
    splitFirst pattern (pattern ++ text) = some ([], text) := by
  obtain ⟨c, pattern, rfl⟩ := List.exists_cons_of_ne_nil hne
  rw [List.cons_append, splitFirst, if_pos ⟨text, rfl⟩]
  simp

/-- A pattern that begins with a word is first found where it was put, if that word does not
occur before and cannot reach across. -/
theorem splitFirst_append {pattern word before after : List α} {stop : α} (hne : pattern ≠ [])
    (hword : word <+: pattern) (hstop : stop ∉ word) (hbefore : ¬ word <:+: before ++ [stop]) :
    splitFirst pattern (before ++ [stop] ++ pattern ++ after) = some (before ++ [stop], after) := by
  induction before with
  | nil =>
      have hnot : ¬ pattern <+: [stop] ++ pattern ++ after := by
        rintro hmatch
        obtain ⟨rest, hrest⟩ := hword.trans hmatch
        cases word with
        | nil => exact hbefore (List.nil_infix)
        | cons c word =>
            rw [List.append_assoc, List.singleton_append, List.cons_append, List.cons.injEq] at hrest
            exact hstop (hrest.1 ▸ List.mem_cons_self)
      rw [List.nil_append, List.append_assoc, List.singleton_append, splitFirst, if_neg,
        splitFirst_of_prefix hne]
      · rfl
      · rwa [List.append_assoc, List.singleton_append] at hnot
  | cons c before ih =>
      have hnot : ¬ pattern <+: c :: (before ++ [stop] ++ pattern ++ after) := by
        intro hmatch
        have hpre := hword.trans hmatch
        rw [← List.cons_append, ← List.cons_append, List.append_assoc, ← List.cons_append] at hpre
        rcases List.prefix_or_prefix_of_prefix hpre (List.prefix_append (c :: before ++ [stop]) _) with
          h | h
        · exact hbefore h.isInfix
        · exact hstop (h.subset (by simp))
      have hinfix : ¬ word <:+: before ++ [stop] := fun h =>
        hbefore (h.trans (List.suffix_cons c _).isInfix)
      rw [List.cons_append, List.cons_append, List.cons_append, splitFirst, if_neg hnot, ih hinfix]
      rfl

/-! ## Scanning for a word -/

/-- How much of a word of four letters has been read. -/
inductive Progress where
  | none | first | second | third
  deriving DecidableEq

section Scan
variable (a b c d : α)

/-- One letter more; the whole word stops the scan. -/
def step : Progress → α → Option Progress
  | p, x =>
      if x = a then some .first
      else match p with
        | .none => some .none
        | .first => some (if x = b then .second else .none)
        | .second => some (if x = c then .third else .none)
        | .third => if x = d then Option.none else some .none

/-- A text. -/
def scan (p : Progress) (text : List α) : Option Progress := text.foldlM (step a b c d) p

end Scan

variable {a b c d : α}

theorem scan_append (p : Progress) (s t : List α) :
    scan a b c d p (s ++ t) = (scan a b c d p s).bind fun p' => scan a b c d p' t :=
  List.foldlM_append

theorem scan_cons (p : Progress) (x : α) (t : List α) :
    scan a b c d p (x :: t) = (step a b c d p x).bind fun p' => scan a b c d p' t :=
  List.foldlM_cons

/-- **A scan that passes finds no occurrence.** -/
theorem not_infix_of_scan (hb : b ≠ a) (hc : c ≠ a) (hd : d ≠ a) {text : List α} {p q : Progress}
    (h : scan a b c d p text = some q) : ¬ [a, b, c, d] <:+: text := by
  rintro ⟨s, t, rfl⟩
  rw [scan_append, scan_append] at h
  cases hs : scan a b c d p s with
  | none => rw [hs] at h; cases h
  | some p' =>
      rw [hs, Option.bind_some] at h
      have hword : scan a b c d p' [a, b, c, d] = none := by
        simp [scan_cons, step, hb, hc, hd]
      rw [hword] at h
      cases h

end SwarmAuth.Substitution
