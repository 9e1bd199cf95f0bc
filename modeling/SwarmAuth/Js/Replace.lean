import SwarmAuth.Js.Value
import SwarmAuth.Lib.Substitution

/-!
# `String.prototype.replace`

With a text as its pattern, `replace` rewrites the first occurrence; in the replacement a
dollar sign begins a pattern of its own. In JSON the first occurrence of a quoted key with
its colon is found past any array of strings: a quotation mark within a string is escaped.

## Main definitions

* `expand`, `replace` — the replacement's patterns, and the rewriting.
* `replace_append` — the occurrence that is rewritten.
* `scan_strings` — no key begins in an array of strings.
-/
namespace SwarmAuth.Js

open Substitution

/-- The replacement with its patterns expanded: a dollar sign, the occurrence, what stands
before it, and what stands after it. -/
def expand (matched before after : List ℕ) : List ℕ → List ℕ
  | 36 :: 36 :: rest => 36 :: expand matched before after rest
  | 36 :: 38 :: rest => matched ++ expand matched before after rest
  | 36 :: 96 :: rest => before ++ expand matched before after rest
  | 36 :: 39 :: rest => after ++ expand matched before after rest
  | c :: rest => c :: expand matched before after rest
  | [] => []

/-- `text.replace(pattern, replacement)`. -/
def replace (text pattern replacement : List ℕ) : List ℕ :=
  match splitFirst pattern text with
  | none => text
  | some (before, after) => before ++ expand pattern before after replacement ++ after

/-- Without dollar signs a replacement stands for itself. -/
theorem expand_of_not_mem {matched before after text : List ℕ} (h : 36 ∉ text) :
    expand matched before after text = text := by
  induction text with
  | nil => rfl
  | cons c text ih =>
      rw [List.mem_cons, not_or] at h
      rw [expand, ih h.2]
      all_goals
        rintro rest rfl
        exact fun _ => h.1 rfl

/-- Where the pattern was put is where it is rewritten, if no word it begins with occurs before. -/
theorem replace_append {p w b t r : List ℕ} {stop : ℕ} (hne : p ≠ []) (hword : w <+: p)
    (hstop : stop ∉ w) (hbefore : ¬ w <:+: b ++ [stop]) :
    replace (b ++ [stop] ++ p ++ t) p r =
      b ++ [stop] ++ expand p (b ++ [stop]) t r ++ t := by
  rw [replace, splitFirst_append hne hword hstop hbefore]

/-! ## Keys in JSON -/

/-- A string, quoted. -/
def quoted (s : Units) : List ℕ := 34 :: s.flatMap Json.escapeUnit ++ [34]

/-- Only a quotation mark is escaped by one. -/
theorem quote_not_mem_escapeUnit {u : UInt16} (h : u.toNat ≠ 34) : 34 ∉ Json.escapeUnit u := by
  have hdigit : ∀ n, 34 ≠ Json.hexDigit n := by
    intro n
    rw [Json.hexDigit]
    split_ifs <;> omega
  simp only [Json.escapeUnit, if_neg h]
  split_ifs <;> simp [Json.hexEscape, hdigit, Ne.symm h]

section Keys
variable {a b : ℕ}

/-- A letter that is no quotation mark does not bring a closing one. -/
theorem step_open {p : Progress} {x : ℕ} (hx : x ≠ 34) (hp : p ≠ .third) :
    ∃ q ≠ Progress.third, step a b 34 58 p x = some q := by
  by_cases ha : x = a
  · exact ⟨.first, by simp, by simp [step, ha]⟩
  cases p with
  | none => exact ⟨.none, by simp, by simp [step, ha]⟩
  | first =>
      by_cases hb : x = b
      · exact ⟨.second, by simp, by simp only [step, if_neg ha, if_pos hb]⟩
      · exact ⟨.none, by simp, by simp only [step, if_neg ha, if_neg hb]⟩
  | second => exact ⟨.none, by simp, by simp only [step, if_neg ha, if_neg hx]⟩
  | third => exact absurd rfl hp

theorem scan_open {p : Progress} {text : List ℕ} (h : 34 ∉ text) (hp : p ≠ .third) :
    ∃ q ≠ Progress.third, scan a b 34 58 p text = some q := by
  induction text generalizing p with
  | nil => exact ⟨p, hp, rfl⟩
  | cons x text ih =>
      rw [List.mem_cons, not_or] at h
      obtain ⟨q, hq, hstep⟩ := step_open (a := a) (b := b) (Ne.symm h.1) hp
      rw [scan_cons, hstep]
      exact ih h.2 hq

variable (ha : a ∉ [34, 44, 91, 92, 93]) (hb : b ∉ [34, 92])
include ha hb

/-- Within a string no quotation mark follows the word's letters. -/
theorem scan_escapes {p : Progress} {s : Units} (hp : p ≠ .third) :
    ∃ q ≠ Progress.third, scan a b 34 58 p (s.flatMap Json.escapeUnit) = some q := by
  induction s generalizing p with
  | nil => exact ⟨p, hp, rfl⟩
  | cons u s ih =>
      have hunit : ∃ q ≠ Progress.third, scan a b 34 58 p (Json.escapeUnit u) = some q := by
        by_cases hu : u.toNat = 34
        · -- the backslash comes first
          simp only [List.mem_cons, List.not_mem_nil, or_false, not_or] at ha hb
          have hback : step a b 34 58 p 92 = some .none := by
            cases p <;> simp [step, Ne.symm ha.2.2.2.1, Ne.symm hb.2]
          refine ⟨.none, by simp, ?_⟩
          simp only [Json.escapeUnit, hu, if_true]
          rw [scan_cons, hback, Option.bind_some, scan_cons, step, if_neg (Ne.symm ha.1)]
          rfl
        · exact scan_open (quote_not_mem_escapeUnit hu) hp
      obtain ⟨q, hq, hscan⟩ := hunit
      rw [List.flatMap_cons, scan_append, hscan]
      exact ih hq

/-- After a string that no colon follows, no part of a key has been read. -/
theorem scan_quoted {s : Units} {x : ℕ} {text : List ℕ} (hx : x ∉ [a, 58]) :
    scan a b 34 58 .none (quoted s ++ x :: text) = scan a b 34 58 .none text := by
  simp only [List.mem_cons, List.not_mem_nil, or_false, not_or] at ha hb hx
  obtain ⟨q, hq, hscan⟩ := scan_escapes (a := a) (b := b) (by simp [ha]) (by simp [hb]) (s := s)
    (p := .none) nofun
  have hclose : ∃ r, step a b 34 58 q 34 = some r ∧ (r = .none ∨ r = .third) := by
    cases q with
    | none => exact ⟨.none, by simp [step, Ne.symm ha.1], Or.inl rfl⟩
    | first => exact ⟨.none, by simp [step, Ne.symm ha.1, Ne.symm hb.1], Or.inl rfl⟩
    | second => exact ⟨.third, by simp [step, Ne.symm ha.1], Or.inr rfl⟩
    | third => exact absurd rfl hq
  obtain ⟨r, hr, hend⟩ := hclose
  have hnext : step a b 34 58 r x = some .none := by
    rcases hend with rfl | rfl
    · simp [step, hx.1]
    · simp [step, hx.1, hx.2]
  have hopen : step a b 34 58 .none 34 = some .none := by simp [step, Ne.symm ha.1]
  rw [quoted, List.cons_append, List.cons_append, scan_cons, hopen, Option.bind_some,
    List.append_assoc, scan_append, hscan, Option.bind_some, List.singleton_append, scan_cons, hr,
    Option.bind_some, scan_cons, hnext, Option.bind_some]

/-- **No key begins in an array of strings.** -/
theorem scan_strings {ss : List Units} {text : List ℕ} :
    scan a b 34 58 .none (91 :: [44].intercalate (ss.map quoted) ++ 93 :: text) =
      scan a b 34 58 .none text := by
  have hletters := ha
  simp only [List.mem_cons, List.not_mem_nil, or_false, not_or] at hletters
  obtain ⟨-, hcomma, hopen, -, hclose⟩ := hletters
  have hskip : ∀ {x : ℕ} {text : List ℕ}, x ≠ a →
      scan a b 34 58 .none (x :: text) = scan a b 34 58 .none text := by
    intro x text hx
    rw [scan_cons, step, if_neg hx, Option.bind_some]
  rw [List.cons_append, hskip (Ne.symm hopen)]
  induction ss with
  | nil => exact hskip (Ne.symm hclose)
  | cons s ss ih =>
      cases ss with
      | nil =>
          simp only [List.map_cons, List.map_nil, List.intercalate_singleton]
          exact scan_quoted ha hb (by simp [Ne.symm hclose])
      | cons t ss =>
          rw [List.map_cons, List.map_cons, List.intercalate_cons_cons, List.append_assoc,
            List.append_assoc, List.singleton_append, scan_quoted ha hb (by simp [Ne.symm hcomma])]
          exact ih

end Keys

end SwarmAuth.Js
