import SwarmAuth.Node.Encode
import SwarmAuth.Js.Reading
import SwarmAuth.Lib.JsonReject

/-!
# Patterns in a replacement

A replacement of `String.prototype.replace` has patterns: `$$`, `$&`, a dollar sign with a
backtick, and one with an apostrophe. Only strings bring them into JSON text. A string
without them stands for itself; one whose patterns are doubled dollar signs loses some; any
other pattern puts in a text whose first quotation mark closes the string.

## Main definitions

* `patternFree`, `Plain` — strings and texts without patterns.
* `plain_render` — a value whose strings have no patterns has a text without.
* `collapse` — doubled dollar signs made single.
* `expand_valueText` — patterns are expanded string by string.
* `expand_quoted_of_collapse`, `broken_quoted` — an expanded string, or what breaks it.
-/
namespace SwarmAuth.Node

open Js

/-! ## Strings without patterns -/

/-- One unit more, after a dollar sign or not; a pattern stops the scan. -/
def patternStep (dollar : Bool) (c : ℕ) : Option Bool :=
  if dollar && (c = 36 || c = 38 || c = 39 || c = 96) then none else some (c = 36)

/-- No dollar sign is followed by a dollar sign, an ampersand, an apostrophe or a backtick. -/
def patternFree (s : Units) : Bool :=
  (s.foldlM (fun dollar u => patternStep dollar u.toNat) false).isSome

/-- A text without patterns that does not end in a dollar sign. -/
def Plain (text : List ℕ) : Prop := text.foldlM patternStep false = some false

section Patterns
variable {s t : List ℕ}

theorem plain_nil : Plain [] := rfl

theorem Plain.append (hs : Plain s) (ht : Plain t) : Plain (s ++ t) := by
  rw [Plain, List.foldlM_append, hs]
  exact ht

theorem plain_of_not_mem (h : 36 ∉ s) : Plain s := by
  induction s with
  | nil => exact plain_nil
  | cons c s ih =>
      rw [List.mem_cons, not_or] at h
      have hstep : patternStep false c = some false := by
        simp only [patternStep, Bool.false_and, Bool.false_eq_true, if_false, Option.some.injEq,
          decide_eq_false_iff_not]
        exact fun hc => h.1 hc.symm
      rw [Plain, List.foldlM_cons, hstep]
      exact ih h.2

/-- A dollar sign before makes no text freer. -/
theorem isSome_of_dollar (h : (s.foldlM patternStep true).isSome = true) :
    (s.foldlM patternStep false).isSome = true := by
  cases s with
  | nil => rfl
  | cons c s =>
      rw [List.foldlM_cons] at h ⊢
      cases hstep : patternStep true c with
      | none => rw [hstep] at h; cases h
      | some d =>
          have hfree : patternStep false c = some d := by
            rw [patternStep] at hstep ⊢
            split_ifs at hstep
            simpa using hstep
          rw [hstep] at h
          rw [hfree]
          exact h

/-- Without patterns a replacement stands for itself. -/
theorem expand_of_free (matched before after : List ℕ) (h : (s.foldlM patternStep false).isSome = true) :
    expand matched before after s = s := by
  induction s with
  | nil => rfl
  | cons c s ih =>
      rw [List.foldlM_cons, patternStep, Bool.false_and, if_neg Bool.false_ne_true] at h
      have hrest : (s.foldlM patternStep false).isSome = true := by
        by_cases hc : c = 36
        · exact isSome_of_dollar (by simpa [hc] using h)
        · simpa [hc] using h
      rw [expand, ih hrest]
      all_goals
        rintro rest rfl rfl
        simp [patternStep] at h

theorem Plain.expand (h : Plain s) (matched before after : List ℕ) :
    expand matched before after s = s :=
  expand_of_free matched before after (by rw [h]; rfl)

theorem foldlM_escapeUnit_ascii : ∀ n < 128, ∀ dollar,
    (Json.escapeUnit (UInt16.ofNat n)).foldlM patternStep dollar = patternStep dollar n := by
  decide

/-- Escaping a unit makes and breaks no pattern. -/
theorem foldlM_escapeUnit (u : UInt16) (dollar : Bool) :
    (Json.escapeUnit u).foldlM patternStep dollar = patternStep dollar u.toNat := by
  by_cases hascii : u.toNat < 128
  · have h := foldlM_escapeUnit_ascii u.toNat hascii dollar
    rwa [UInt16.ofNat_toNat] at h
  · have hother : ∀ c, 128 ≤ c ∨ c = 92 → patternStep dollar c = some false := by
      intro c hc
      rw [patternStep, if_neg, Option.some.injEq, decide_eq_false_iff_not]
      · omega
      · simp only [Bool.and_eq_true, Bool.or_eq_true, decide_eq_true_eq, not_and]
        omega
    have hdigit : ∀ k, Json.hexDigit (k % 16) ≠ 36 := by
      intro k
      have hdigits : ∀ d < 16, Json.hexDigit d ≠ 36 := by decide
      exact hdigits _ (Nat.mod_lt k (by norm_num))
    rw [escapeUnit_high (by omega), hother _ (Or.inl (not_lt.mp hascii)), Json.hexEscape,
      List.foldlM_cons, hother 92 (Or.inr rfl)]
    refine plain_of_not_mem ?_
    simp [Ne.symm (hdigit _)]

theorem foldlM_escapes (s : Units) (dollar : Bool) :
    (s.flatMap Json.escapeUnit).foldlM patternStep dollar =
      s.foldlM (fun dollar u => patternStep dollar u.toNat) dollar := by
  induction s generalizing dollar with
  | nil => rfl
  | cons u s ih =>
      rw [List.flatMap_cons, List.foldlM_append, foldlM_escapeUnit, List.foldlM_cons]
      exact congrArg _ (funext fun d => ih d)

/-- A quoted string without patterns. -/
theorem plain_quoted {s : Units} (h : patternFree s = true) : Plain (quoted s) := by
  obtain ⟨dollar, hdollar⟩ := Option.isSome_iff_exists.mp h
  have hquote : ∀ d, patternStep d 34 = some false := by decide
  rw [Plain, quoted, List.cons_append, List.foldlM_cons, hquote, Option.bind_eq_bind, Option.bind_some,
    List.foldlM_append, foldlM_escapes, hdollar, Option.bind_eq_bind, Option.bind_some,
    List.foldlM_cons, hquote]
  rfl

theorem plain_scalarText {w : Scalar} (h : portable w = true) : Plain (scalarText w) := by
  refine plain_of_not_mem fun hmem => ?_
  exact absurd ((reads_scalarText h).word 36 hmem) (by decide)

theorem plain_cons {c : ℕ} (hc : c ≠ 36) (hs : Plain s) : Plain (c :: s) := by
  have hone : Plain [c] := plain_of_not_mem (by simpa using hc.symm)
  exact hone.append hs

theorem plain_intercalate {parts : List (List ℕ)} (h : ∀ p ∈ parts, Plain p) :
    Plain ([44].intercalate parts) := by
  induction parts with
  | nil => exact plain_nil
  | cons p parts ih =>
      have hp := h p List.mem_cons_self
      have hrest := ih fun q hq => h q (List.mem_cons_of_mem p hq)
      cases parts with
      | nil => simpa using hp
      | cons q parts =>
          rw [List.intercalate_cons_cons]
          exact (hp.append (plain_of_not_mem (by decide))).append hrest

/-- **A value whose strings have no patterns has a text without.** -/
theorem plain_render {v : Value} (hv : v.allScalars portable = true) (hs : v.allStrs patternFree = true) :
    Plain (Json.render scalarText v) := by
  induction v using Json.Tree.ind with
  | scalar w =>
      rw [Json.render_scalar]
      exact plain_scalarText hv
  | str s =>
      rw [Json.render_str]
      exact plain_quoted hs
  | arr items ih =>
      rw [Json.Tree.allScalars_arr, List.all_eq_true] at hv
      rw [Json.Tree.allStrs_arr, List.all_eq_true] at hs
      rw [Json.render_arr]
      refine (plain_cons (by norm_num) (plain_intercalate ?_)).append (plain_of_not_mem (by decide))
      intro p hp
      obtain ⟨t, ht, rfl⟩ := List.mem_map.mp hp
      exact ih t ht (hv t ht) (hs t ht)
  | obj members ih =>
      rw [Json.Tree.allScalars_obj, List.all_eq_true] at hv
      rw [Json.Tree.allStrs_obj, List.all_eq_true] at hs
      rw [Json.render_obj]
      refine (plain_cons (by norm_num) (plain_intercalate ?_)).append (plain_of_not_mem (by decide))
      intro p hp
      obtain ⟨m, hm, rfl⟩ := List.mem_map.mp hp
      obtain ⟨hkey, hvalue⟩ := Bool.and_eq_true_iff.mp (hs m hm)
      have hquoted : 34 :: m.1.flatMap Json.escapeUnit ++ 34 :: 58 :: Json.render scalarText m.2 =
          quoted m.1 ++ 58 :: Json.render scalarText m.2 := by simp [quoted]
      rw [hquoted]
      exact (plain_quoted hkey).append (plain_cons (by norm_num) (ih m hm (hv m hm) hvalue))

end Patterns


/-! ## Strings with patterns -/

/-- Doubled dollar signs are made single; none where another pattern stands. -/
def collapse : Units → Option Units
  | [] => some []
  | [u] => some [u]
  | u :: v :: s =>
      if u.toNat = 36 then
        if v.toNat = 36 then (collapse s).map (u :: ·)
        else if v.toNat = 38 ∨ v.toNat = 39 ∨ v.toNat = 96 then none
        else (collapse (v :: s)).map (u :: ·)
      else (collapse (v :: s)).map (u :: ·)

theorem length_collapse_le {s t : Units} (h : collapse s = some t) : t.length ≤ s.length := by
  fun_induction collapse s generalizing t with
  | case1 => rw [← Option.some.inj h]
  | case2 u => rw [← Option.some.inj h]
  | case3 u v s hu hv ih =>
      obtain ⟨t, ht, rfl⟩ := Option.map_eq_some_iff.mp h
      have := ih ht
      simp only [List.length_cons]
      omega
  | case4 u v s hu hv hspecial => cases h
  | case5 u v s hu hv hspecial ih =>
      obtain ⟨t, ht, rfl⟩ := Option.map_eq_some_iff.mp h
      exact Nat.succ_le_succ (ih ht)
  | case6 u v s hu ih =>
      obtain ⟨t, ht, rfl⟩ := Option.map_eq_some_iff.mp h
      exact Nat.succ_le_succ (ih ht)

/-- A string that keeps its length has no pattern. -/
theorem patternFree_of_collapse {s t : Units} (h : collapse s = some t)
    (hlength : t.length = s.length) : patternFree s = true := by
  rw [patternFree]
  fun_induction collapse s generalizing t with
  | case1 => rfl
  | case2 u => rfl
  | case3 u v s hu hv ih =>
      obtain ⟨t, ht, rfl⟩ := Option.map_eq_some_iff.mp h
      have := length_collapse_le ht
      simp only [List.length_cons] at hlength
      omega
  | case4 u v s hu hv hspecial => cases h
  | case5 u v s hu hv hspecial ih =>
      obtain ⟨t, ht, rfl⟩ := Option.map_eq_some_iff.mp h
      have hrest := ih ht (Nat.succ.inj hlength)
      have hfree : patternStep false v.toNat = some false := by simp [patternStep, hv]
      have hdollar : patternStep true v.toNat = some false := by
        simp only [not_or] at hspecial
        simp [patternStep, hv, hspecial]
      have hfirst : patternStep false u.toNat = some true := by simp [patternStep, hu]
      rw [List.foldlM_cons, hfree] at hrest
      rw [List.foldlM_cons, hfirst, Option.bind_eq_bind, Option.bind_some, List.foldlM_cons, hdollar]
      exact hrest
  | case6 u v s hu ih =>
      obtain ⟨t, ht, rfl⟩ := Option.map_eq_some_iff.mp h
      have hrest := ih ht (Nat.succ.inj hlength)
      have hfirst : patternStep false u.toNat = some false := by simp [patternStep, hu]
      rw [List.foldlM_cons, hfirst]
      exact hrest

section Expand
variable {matched before after : List ℕ}

theorem expand_cons {c : ℕ} (hc : c ≠ 36) (text : List ℕ) :
    expand matched before after (c :: text) = c :: expand matched before after text := by
  rw [expand]
  all_goals
    rintro rest rfl
    exact fun _ => hc rfl

/-- A dollar sign before another character stands for itself. -/
theorem expand_dollar {c : ℕ} (hc : c ≠ 36 ∧ c ≠ 38 ∧ c ≠ 39 ∧ c ≠ 96) (text : List ℕ) :
    expand matched before after (36 :: c :: text) = 36 :: expand matched before after (c :: text) := by
  rw [expand]
  all_goals
    rintro rest - hrest
    injection hrest with hhead
    simp [hhead] at hc

theorem expand_append {text : List ℕ} (h : 36 ∉ text) (rest : List ℕ) :
    expand matched before after (text ++ rest) = text ++ expand matched before after rest := by
  induction text with
  | nil => rfl
  | cons c text ih =>
      rw [List.mem_cons, not_or] at h
      rw [List.cons_append, expand_cons (Ne.symm h.1), ih h.2, List.cons_append]

/-- What follows a quotation mark is expanded apart. -/
theorem expand_append_quote (text rest : List ℕ) :
    expand matched before after (text ++ 34 :: rest) =
      expand matched before after (text ++ [34]) ++ expand matched before after rest := by
  fun_induction expand matched before after text with
  | case1 text ih => simp only [List.cons_append, expand, ih]
  | case2 text ih => simp only [List.cons_append, expand, ih, List.append_assoc]
  | case3 text ih => simp only [List.cons_append, expand, ih, List.append_assoc]
  | case4 text ih => simp only [List.cons_append, expand, ih, List.append_assoc]
  | case5 c text h36 h38 h96 h39 ih =>
      have hstands : ∀ tail, expand matched before after (c :: (text ++ 34 :: tail)) =
          c :: expand matched before after (text ++ 34 :: tail) := by
        intro tail
        by_cases hc : c = 36
        · subst hc
          cases text with
          | nil => exact expand_dollar (by decide) tail
          | cons d text =>
              refine expand_dollar ⟨?_, ?_, ?_, ?_⟩ _
              · rintro rfl
                exact h36 text rfl rfl
              · rintro rfl
                exact h38 text rfl rfl
              · rintro rfl
                exact h39 text rfl rfl
              · rintro rfl
                exact h96 text rfl rfl
        · exact expand_cons hc _
      rw [List.cons_append, List.cons_append, hstands, hstands, ih]
      rfl
  | case6 => rfl

theorem expand_quoted (s : Units) (rest : List ℕ) :
    expand matched before after (quoted s ++ rest) =
      expand matched before after (quoted s) ++ expand matched before after rest := by
  rw [quoted, List.append_assoc]
  exact expand_append_quote _ rest

/-- The text of a value with its strings expanded. -/
def expandedText (matched before after : List ℕ) (v : Value) : List ℕ :=
  Json.write scalarText (fun s => expand matched before after (quoted s)) v

theorem expand_intercalate {α : Type} {F G : α → List ℕ} {as : List α}
    (h : ∀ a ∈ as, ∀ rest, expand matched before after (F a ++ rest) =
      G a ++ expand matched before after rest) (rest : List ℕ) :
    expand matched before after ([44].intercalate (as.map F) ++ rest) =
      [44].intercalate (as.map G) ++ expand matched before after rest := by
  induction as with
  | nil => rfl
  | cons a as ih =>
      have ha := h a List.mem_cons_self
      cases as with
      | nil => simpa using ha rest
      | cons b as =>
          have hrest := ih fun x hx => h x (List.mem_cons_of_mem a hx)
          rw [List.map_cons, List.map_cons, List.intercalate_cons_cons, List.map_cons, List.map_cons,
            List.intercalate_cons_cons, ← List.map_cons, ← List.map_cons, List.append_assoc,
            List.append_assoc, ha, expand_append (by decide), hrest]
          simp

/-- **Patterns are expanded string by string.** -/
theorem expand_valueText {v : Value} (h : v.allScalars portable = true) (rest : List ℕ) :
    expand matched before after (WireClaims.valueText v ++ rest) =
      expandedText matched before after v ++ expand matched before after rest := by
  induction v using Json.Tree.ind generalizing rest with
  | scalar w =>
      rw [WireClaims.valueText, Json.render_scalar, expandedText, Json.write_scalar]
      exact expand_append (fun hmem => absurd ((reads_scalarText h).word 36 hmem) (by decide)) rest
  | str s =>
      rw [WireClaims.valueText_str, expandedText, Json.write_str]
      exact expand_quoted s rest
  | arr items ih =>
      rw [Json.Tree.allScalars_arr, List.all_eq_true] at h
      have hitems := expand_intercalate (F := WireClaims.valueText)
        (G := expandedText matched before after) (fun t ht => ih t ht (h t ht)) (93 :: rest)
      rw [WireClaims.valueText, Json.render_arr, expandedText, Json.write_arr, List.cons_append,
        List.cons_append, expand_cons (by decide), List.append_assoc]
      refine congrArg (91 :: ·) (hitems.trans ?_)
      rw [expand_cons (by decide)]
      exact List.append_cons ..
  | obj members ih =>
      rw [Json.Tree.allScalars_obj, List.all_eq_true] at h
      have hmembers := expand_intercalate
        (F := fun m : Units × Value => WireClaims.keyText m.1 ++ WireClaims.valueText m.2)
        (G := fun m => expand matched before after (quoted m.1) ++
          58 :: expandedText matched before after m.2)
        (fun m hm tail => by
          rw [WireClaims.keyText, List.append_assoc, List.append_assoc, expand_quoted,
            expand_append (by decide), ih m hm (h m hm)]
          simp) (125 :: rest)
      rw [WireClaims.render_obj_members, expandedText, Json.write_obj, List.cons_append,
        List.cons_append, expand_cons (by decide), List.append_assoc]
      refine congrArg (123 :: ·) (hmembers.trans ?_)
      rw [expand_cons (by decide)]
      exact List.append_cons ..

/-! ### Strings one by one -/

theorem escapeUnit_dollar {u : UInt16} (h : u.toNat = 36) : Json.escapeUnit u = [36] := by
  simp [Json.escapeUnit, h]

theorem escapeUnit_head_ascii : ∀ n < 128, ¬ (n = 36 ∨ n = 38 ∨ n = 39 ∨ n = 96) →
    36 ∉ Json.escapeUnit (UInt16.ofNat n) ∧
      ¬ (Json.escapeUnit (UInt16.ofNat n)).headD 36 ∈ [36, 38, 39, 96] := by
  decide

/-- Only a dollar sign is escaped to one, and only the patterns' characters to theirs. -/
theorem escapeUnit_head {u : UInt16} (h : ¬ (u.toNat = 36 ∨ u.toNat = 38 ∨ u.toNat = 39 ∨ u.toNat = 96)) :
    36 ∉ Json.escapeUnit u ∧ ¬ (Json.escapeUnit u).headD 36 ∈ [36, 38, 39, 96] := by
  by_cases hascii : u.toNat < 128
  · have hhead := escapeUnit_head_ascii u.toNat hascii h
    rwa [UInt16.ofNat_toNat] at hhead
  · have hdigit : ∀ k, Json.hexDigit (k % 16) ≠ 36 := by
      intro k
      have hdigits : ∀ d < 16, Json.hexDigit d ≠ 36 := by decide
      exact hdigits _ (Nat.mod_lt k (by norm_num))
    rw [escapeUnit_high (by omega), Json.hexEscape]
    refine ⟨by simp [Ne.symm (hdigit _)], ?_⟩
    rw [List.headD_cons]
    decide

theorem dollar_not_mem_escapeUnit {u : UInt16} (h : u.toNat ≠ 36) : 36 ∉ Json.escapeUnit u := by
  by_cases hspecial : u.toNat = 38 ∨ u.toNat = 39 ∨ u.toNat = 96
  · rcases hspecial with hu | hu | hu <;> simp [Json.escapeUnit, hu]
  · exact (escapeUnit_head (by tauto)).1

/-- A dollar sign before a unit that makes no pattern. -/
theorem expand_dollar_escapeUnit {v : UInt16}
    (hv : ¬ (v.toNat = 36 ∨ v.toNat = 38 ∨ v.toNat = 39 ∨ v.toNat = 96)) (rest : List ℕ) :
    expand matched before after (36 :: (Json.escapeUnit v ++ rest)) =
      36 :: expand matched before after (Json.escapeUnit v ++ rest) := by
  have hhead := (escapeUnit_head hv).2
  cases htext : Json.escapeUnit v with
  | nil => simp [htext] at hhead
  | cons c text =>
      rw [htext, List.headD_cons] at hhead
      exact expand_dollar (by simpa using hhead) _

/-- **A string whose patterns are doubled dollar signs** loses some. -/
theorem expand_collapse {s t : Units} (h : collapse s = some t) (rest : List ℕ) :
    expand matched before after (s.flatMap Json.escapeUnit ++ 34 :: rest) =
      t.flatMap Json.escapeUnit ++ expand matched before after (34 :: rest) := by
  fun_induction collapse s generalizing t with
  | case1 => rw [← Option.some.inj h]; rfl
  | case2 u =>
      rw [← Option.some.inj h, List.flatMap_cons, List.flatMap_nil, List.append_nil]
      by_cases hu : u.toNat = 36
      · rw [escapeUnit_dollar hu]
        exact expand_dollar (by decide) rest
      · exact expand_append (dollar_not_mem_escapeUnit hu) _
  | case3 u v s hu hv ih =>
      obtain ⟨t, ht, rfl⟩ := Option.map_eq_some_iff.mp h
      rw [List.flatMap_cons, List.flatMap_cons, List.flatMap_cons, escapeUnit_dollar hu,
        escapeUnit_dollar hv]
      simp only [List.cons_append, List.nil_append, expand, ih ht]
  | case4 u v s hu hv hspecial => cases h
  | case5 u v s hu hv hspecial ih =>
      obtain ⟨t, ht, rfl⟩ := Option.map_eq_some_iff.mp h
      have hrest := ih ht
      rw [List.flatMap_cons, List.append_assoc] at hrest
      rw [List.flatMap_cons, List.flatMap_cons, List.flatMap_cons, escapeUnit_dollar hu, List.append_assoc,
        List.append_assoc, List.singleton_append, expand_dollar_escapeUnit (by tauto), hrest]
      rfl
  | case6 u v s hu ih =>
      obtain ⟨t, ht, rfl⟩ := Option.map_eq_some_iff.mp h
      rw [List.flatMap_cons, List.append_assoc, expand_append (dollar_not_mem_escapeUnit hu), ih ht,
        List.flatMap_cons, List.append_assoc]

/-- In any other string something is put in. -/
theorem expand_of_collapse_none {s : Units} (h : collapse s = none) (rest : List ℕ) :
    ∃ (t : Units) (insert tail : List ℕ), insert ∈ [matched, before, after] ∧
      expand matched before after (s.flatMap Json.escapeUnit ++ 34 :: rest) =
        t.flatMap Json.escapeUnit ++ (insert ++ tail) := by
  fun_induction collapse s with
  | case1 => cases h
  | case2 u => cases h
  | case3 u v s hu hv ih =>
      obtain ⟨t, insert, tail, hinsert, htext⟩ := ih (Option.map_eq_none_iff.mp h)
      refine ⟨u :: t, insert, tail, hinsert, ?_⟩
      rw [List.flatMap_cons, List.flatMap_cons, List.flatMap_cons, escapeUnit_dollar hu,
        escapeUnit_dollar hv]
      simp only [List.cons_append, List.nil_append, expand, htext]
  | case4 u v s hu hv hspecial =>
      rw [List.flatMap_cons, List.flatMap_cons, escapeUnit_dollar hu]
      rcases hspecial with hv | hv | hv
      · have hescape : Json.escapeUnit v = [38] := by simp [Json.escapeUnit, hv]
        refine ⟨[], matched, expand matched before after (s.flatMap Json.escapeUnit ++ 34 :: rest),
          by simp, ?_⟩
        rw [hescape]
        simp only [List.cons_append, List.nil_append, expand, List.flatMap_nil]
      · have hescape : Json.escapeUnit v = [39] := by simp [Json.escapeUnit, hv]
        refine ⟨[], after, expand matched before after (s.flatMap Json.escapeUnit ++ 34 :: rest),
          by simp, ?_⟩
        rw [hescape]
        simp only [List.cons_append, List.nil_append, expand, List.flatMap_nil]
      · have hescape : Json.escapeUnit v = [96] := by simp [Json.escapeUnit, hv]
        refine ⟨[], before, expand matched before after (s.flatMap Json.escapeUnit ++ 34 :: rest),
          by simp, ?_⟩
        rw [hescape]
        simp only [List.cons_append, List.nil_append, expand, List.flatMap_nil]
  | case5 u v s hu hv hspecial ih =>
      obtain ⟨t, insert, tail, hinsert, htext⟩ := ih (Option.map_eq_none_iff.mp h)
      refine ⟨u :: t, insert, tail, hinsert, ?_⟩
      rw [List.flatMap_cons, List.append_assoc] at htext
      rw [List.flatMap_cons, List.flatMap_cons, List.flatMap_cons, escapeUnit_dollar hu, List.append_assoc,
        List.append_assoc, List.singleton_append, expand_dollar_escapeUnit (by tauto), htext]
      rfl
  | case6 u v s hu ih =>
      obtain ⟨t, insert, tail, hinsert, htext⟩ := ih (Option.map_eq_none_iff.mp h)
      refine ⟨u :: t, insert, tail, hinsert, ?_⟩
      rw [List.flatMap_cons, List.append_assoc, expand_append (dollar_not_mem_escapeUnit hu), htext,
        List.flatMap_cons, List.append_assoc]

/-! ### What is read -/

theorem expand_quoted_of_collapse {s t : Units} (h : collapse s = some t) :
    expand matched before after (quoted s) = quoted t := by
  rw [quoted, List.cons_append, expand_cons (by decide), expand_collapse h]
  rfl

/-- A text that closes a string it is put in: a letter follows its first quotation mark. -/
def Closing (text : List ℕ) : Prop :=
  ∃ front letter rest, text = front ++ 34 :: letter :: rest ∧ Json.isWordCode letter = true ∧
    ∀ c ∈ front, c = 44 ∨ c = 123

/-- **Another pattern breaks its string.** -/
theorem broken_quoted {s : Units} (h : collapse s = none)
    (hclosing : ∀ insert ∈ [matched, before, after], Closing insert) :
    Json.Broken classify (expand matched before after (quoted s)) := by
  obtain ⟨t, insert, tail, hinsert, htext⟩ :=
    @expand_of_collapse_none matched before after _ h []
  obtain ⟨front, letter, rest, rfl, hletter, hfront⟩ := hclosing insert hinsert
  have hopen : ∀ out : List (Json.Token Scalar),
      Json.lexRun classify ⟨out, .between⟩ (34 :: t.flatMap Json.escapeUnit ++ front) =
        some ⟨out, .str (t ++ front.flatMap unitsOf)⟩ := by
    intro out
    have hstart : Json.lexStep classify ⟨out, .between⟩ 34 = some ⟨out, .str []⟩ := rfl
    have hunits : ∀ units : Units, Json.lexRun classify ⟨out, .str units⟩ front =
        some ⟨out, .str (units ++ front.flatMap unitsOf)⟩ := by
      clear hletter htext hinsert
      induction front with
      | nil => simp
      | cons c front ih =>
          intro units
          have hstep : Json.lexStep classify ⟨out, .str units⟩ c = some ⟨out, .str (units ++ unitsOf c)⟩ := by
            rcases hfront c List.mem_cons_self with rfl | rfl <;> rfl
          rw [Json.lexRun_cons, hstep, Option.bind_some, ih fun d hd => hfront d (List.mem_cons_of_mem c hd)]
          simp
    rw [List.cons_append, Json.lexRun_cons, hstart, Option.bind_some, Json.lexRun_append,
      Json.lexRun_escapeUnits, Option.bind_some, hunits, List.nil_append]
  have hexpand : expand matched before after (quoted s) =
      34 :: t.flatMap Json.escapeUnit ++ front ++ 34 :: letter :: (rest ++ tail) := by
    rw [quoted, List.cons_append, expand_cons (by decide), htext]
    simp
  rw [hexpand]
  exact Json.broken_of_quote hopen hletter

end Expand

end SwarmAuth.Node
