import SwarmAuth.Lib.JsonReading

/-!
# Texts that are not JSON

In JSON no word follows a string. A text in which a string closes too early, at a quotation
mark that a letter follows, has a word there: the lexer's state is marked from then on, and
no grammar reads its tokens.

## Main definitions

* `Adjacent`, `parseTokens_of_adjacent` — a string and a word side by side.
* `Marked`, `marked_lexRun` — they have been read.
* `Broken`, `parse_of_broken` — a text that reads them is not JSON.
* `broken_write` — a written tree is broken at any broken string.
-/
namespace SwarmAuth.Json

variable {W : Type}

/-- A string, then a word. -/
def Adjacent (toks : List (Token W)) : Prop :=
  ∃ before s w after, toks = before ++ .str s :: .word w :: after

/-- After a string the grammar admits no word. -/
theorem parseStep_str_word {st st' : ParseState W} {s : Units} (w : W)
    (h : parseStep st (.str s) = some st') : parseStep st' (.word w) = none := by
  have hdeliver : ∀ (t : Tree W Units) stack, parseStep (deliver t stack) (.word w) = none := by
    intro t stack
    cases stack with
    | nil => rfl
    | cons frame stack => cases frame <;> rfl
  cases st with
  | value stack => rw [← Option.some.inj h]; exact hdeliver _ _
  | arrayStart stack => rw [← Option.some.inj h]; exact hdeliver _ _
  | objectStart stack => rw [← Option.some.inj h]; rfl
  | objectKey read stack => rw [← Option.some.inj h]; rfl
  | arrayNext read stack => cases h
  | objectColon read key stack => cases h
  | objectNext read stack => cases h
  | complete t => cases h

theorem parseTokens_of_adjacent {toks : List (Token W)} (h : Adjacent toks) :
    parseTokens toks = none := by
  obtain ⟨before, s, w, after, rfl⟩ := h
  have hrun : ∀ st : ParseState W, parseRun st (before ++ .str s :: .word w :: after) = none := by
    intro st
    rw [parseRun_append]
    cases parseRun st before with
    | none => rfl
    | some st =>
        rw [Option.bind_some, parseRun_cons]
        cases hstr : parseStep st (.str s) with
        | none => rfl
        | some st' => rw [Option.bind_some, parseRun_cons, parseStep_str_word w hstr]; rfl
  rw [parseTokens, hrun]

/-! ## Marked states -/

/-- A word follows a string, finished or not. -/
def Marked (st : LexState W) : Prop :=
  Adjacent st.out ∨ ∃ text before s, st.mode = .word text ∧ st.out = before ++ [.str s]

theorem Adjacent.append {toks : List (Token W)} (h : Adjacent toks) (more : List (Token W)) :
    Adjacent (toks ++ more) := by
  obtain ⟨before, s, w, after, rfl⟩ := h
  exact ⟨before, s, w, after ++ more, by simp⟩

variable {classify : List ℕ → Option W}

/-- Between tokens a character adds one token at most. -/
theorem out_lexBetween {out : List (Token W)} {c : ℕ} {st : LexState W}
    (h : lexBetween out c = some st) : ∃ more, st.out = out ++ more := by
  rw [lexBetween] at h
  split_ifs at h with hspace hquote hword
  · exact ⟨[], by rw [← Option.some.inj h, List.append_nil]⟩
  · exact ⟨[], by rw [← Option.some.inj h, List.append_nil]⟩
  · exact ⟨[], by rw [← Option.some.inj h, List.append_nil]⟩
  · obtain ⟨t, -, rfl⟩ := Option.map_eq_some_iff.mp h
    exact ⟨[t], rfl⟩

theorem out_lexStep {st st' : LexState W} {c : ℕ} (h : lexStep classify st c = some st') :
    ∃ more, st'.out = st.out ++ more := by
  obtain ⟨out, mode⟩ := st
  cases mode with
  | between => exact out_lexBetween h
  | word text =>
      simp only [lexStep] at h
      split_ifs at h with hword
      · exact ⟨[], by rw [← Option.some.inj h, List.append_nil]⟩
      · obtain ⟨w, -, hbetween⟩ := Option.bind_eq_some_iff.mp h
        obtain ⟨more, hmore⟩ := out_lexBetween hbetween
        exact ⟨[.word w] ++ more, by rw [hmore, List.append_assoc]⟩
  | str units =>
      simp only [lexStep] at h
      split_ifs at h
      · exact ⟨[.str units], by rw [← Option.some.inj h]⟩
      · exact ⟨[], by rw [← Option.some.inj h, List.append_nil]⟩
      · exact ⟨[], by rw [← Option.some.inj h, List.append_nil]⟩
  | esc units =>
      simp only [lexStep] at h
      split_ifs at h
      · exact ⟨[], by rw [← Option.some.inj h, List.append_nil]⟩
      · obtain ⟨u, -, rfl⟩ := Option.map_eq_some_iff.mp h
        exact ⟨[], (List.append_nil _).symm⟩
  | hex units digits value =>
      obtain ⟨d, -, rfl⟩ := Option.map_eq_some_iff.mp h
      exact ⟨[], by split_ifs <;> exact (List.append_nil _).symm⟩

/-- A mark stays. -/
theorem marked_lexStep {st st' : LexState W} {c : ℕ} (hst : Marked st)
    (h : lexStep classify st c = some st') : Marked st' := by
  rcases hst with hadjacent | ⟨text, before, s, hmode, hout⟩
  · obtain ⟨more, hmore⟩ := out_lexStep h
    exact Or.inl (hmore ▸ hadjacent.append more)
  · rw [lexStep, hmode] at h
    dsimp only at h
    split_ifs at h with hword
    · exact Or.inr ⟨text ++ [c], before, s, by rw [← Option.some.inj h], by rw [← Option.some.inj h, ← hout]⟩
    · obtain ⟨w, -, hbetween⟩ := Option.bind_eq_some_iff.mp h
      obtain ⟨more, hmore⟩ := out_lexBetween hbetween
      exact Or.inl ⟨before, s, w, more, by rw [hmore, hout]; simp⟩

theorem marked_lexRun {st st' : LexState W} {text : List ℕ} (hst : Marked st)
    (h : lexRun classify st text = some st') : Marked st' := by
  induction text generalizing st with
  | nil => rwa [← Option.some.inj h]
  | cons c text ih =>
      obtain ⟨st₁, hstep, hrun⟩ := Option.bind_eq_some_iff.mp h
      exact ih (marked_lexStep hst hstep) hrun

theorem adjacent_of_settle {st : LexState W} {toks : List (Token W)} (hst : Marked st)
    (h : settle classify st = some toks) : Adjacent toks := by
  obtain ⟨out, mode⟩ := st
  rcases hst with hadjacent | ⟨text, before, s, hmode, hout⟩
  · cases mode with
    | between => rwa [← Option.some.inj h]
    | word text =>
        obtain ⟨w, -, rfl⟩ := Option.map_eq_some_iff.mp h
        exact hadjacent.append [.word w]
    | str units => cases h
    | esc units => cases h
    | hex units digits value => cases h
  · obtain rfl : mode = .word text := hmode
    obtain rfl : out = before ++ [.str s] := hout
    obtain ⟨w, -, rfl⟩ := Option.map_eq_some_iff.mp h
    exact ⟨before, s, w, [], by simp⟩

/-! ## Broken texts -/

/-- From between tokens, the text reads a string and a word. -/
def Broken (classify : List ℕ → Option W) (cs : List ℕ) : Prop :=
  ∀ out st, lexRun classify ⟨out, .between⟩ cs = some st → Marked st

/-- **A broken text is not JSON.** -/
theorem parse_of_broken {cs : List ℕ} (h : Broken classify cs) : parse classify cs = none := by
  rw [parse, lex]
  cases hrun : lexRun classify ⟨[], .between⟩ cs with
  | none => rfl
  | some st =>
      rw [Option.bind_some]
      cases hset : settle classify st with
      | none => rfl
      | some toks => exact parseTokens_of_adjacent (adjacent_of_settle (h [] st hrun) hset)

section Broken
variable {cs ds : List ℕ} {g : List (Token W)}

theorem Broken.append (h : Broken classify cs) (ds : List ℕ) : Broken classify (cs ++ ds) := by
  intro out st hrun
  rw [lexRun_append] at hrun
  obtain ⟨st₁, hfirst, hrest⟩ := Option.bind_eq_some_iff.mp hrun
  exact marked_lexRun (h out st₁ hfirst) hrest

theorem Broken.punct_cons {c : ℕ} {p : Token W} (hp : punct c = some p) (h : Broken classify cs) :
    Broken classify (c :: cs) := by
  intro out st hrun
  have hstep : lexStep classify ⟨out, .between⟩ c = some ⟨out ++ [p], .between⟩ :=
    (lexBetween_punct hp).2 out
  rw [lexRun_cons, hstep, Option.bind_some] at hrun
  exact h _ st hrun

theorem StrText.append_broken {s : Units} (hs : StrText classify ds s) (h : Broken classify cs) :
    Broken classify (ds ++ cs) := by
  intro out st hrun
  rw [lexRun_append, hs, Option.bind_some] at hrun
  exact h _ st hrun

theorem Spells.append_broken {c : ℕ} {p : Token W} (hg : Spells classify cs g)
    (hp : punct c = some p) (h : Broken classify ds) : Broken classify (cs ++ c :: ds) := by
  intro out st hrun
  obtain ⟨st₁, hfirst, hset⟩ := hg out
  obtain ⟨hword, hlex⟩ := lexBetween_punct hp
  have hstep : lexStep classify st₁ c = some ⟨out ++ g ++ [p], .between⟩ := by
    rw [lexStep_of_settle classify hset hword, hlex]
  rw [lexRun_append, hfirst, Option.bind_some, lexRun_cons, hstep, Option.bind_some] at hrun
  exact h _ st hrun

/-- Texts with commas between are broken at any of them, when the others are tokens. -/
theorem broken_intercalate {α : Type} {F : α → List ℕ} {as : List α}
    (hall : ∀ a ∈ as, (∃ g, Spells classify (F a) g) ∨ Broken classify (F a))
    (h : ∃ a ∈ as, Broken classify (F a)) : Broken classify ([44].intercalate (as.map F)) := by
  induction as with
  | nil =>
      obtain ⟨a, ha, -⟩ := h
      cases ha
  | cons a as ih =>
      cases as with
      | nil =>
          obtain ⟨b, hb, hbroken⟩ := h
          obtain rfl := List.mem_singleton.mp hb
          simpa using hbroken
      | cons b as =>
          rw [List.map_cons, List.map_cons, List.intercalate_cons_cons, ← List.map_cons]
          rcases hall a List.mem_cons_self with ⟨g, hg⟩ | hbroken
          · by_cases hfirst : Broken classify (F a)
            · rw [List.append_assoc]
              exact hfirst.append _
            · have hrest := ih (fun x hx => hall x (List.mem_cons_of_mem a hx)) (by
                obtain ⟨x, hx, hxbroken⟩ := h
                rcases List.mem_cons.mp hx with rfl | hx
                · exact absurd hxbroken hfirst
                · exact ⟨x, hx, hxbroken⟩)
              have hsep := hg.append_broken (c := 44) (p := .comma) rfl hrest
              simpa using hsep
          · rw [List.append_assoc]
            exact hbroken.append _

/-- A tree that is written with a broken string is broken. -/
theorem broken_write {S : Type} {text : W → List ℕ} {string : S → List ℕ} (units : S → Units)
    {p : W → Bool} {q : S → Bool} (hp : ∀ w, p w = true → WordText classify text w)
    (hq : ∀ s, q s = true → StrText classify (string s) (units s))
    (hbroken : ∀ s, q s = false → Broken classify (string s)) {t : Tree W S}
    (ht : t.allScalars p = true) (hs : t.allStrs q = false) :
    Broken classify (write text string t) := by
  induction t using Tree.ind with
  | scalar w => cases hs
  | str s => exact hbroken s hs
  | arr items ih =>
      rw [Tree.allScalars_arr, List.all_eq_true] at ht
      rw [Tree.allStrs_arr, List.all_eq_false] at hs
      obtain ⟨t, hmem, hbad⟩ := hs
      rw [write_arr, List.cons_append]
      refine Broken.punct_cons (p := .lbrack) rfl (Broken.append (broken_intercalate ?_ ?_) _)
      · intro u hu
        cases hgood : u.allStrs q with
        | true => exact Or.inl ⟨_, Spells.write hp hq (ht u hu) hgood⟩
        | false => exact Or.inr (ih u hu (ht u hu) hgood)
      · exact ⟨t, hmem, ih t hmem (ht t hmem) (by simpa using hbad)⟩
  | obj members ih =>
      rw [Tree.allScalars_obj, List.all_eq_true] at ht
      rw [Tree.allStrs_obj, List.all_eq_false] at hs
      obtain ⟨m, hmem, hbad⟩ := hs
      have hmember : ∀ m ∈ members, (q m.1 && m.2.allStrs q) = false →
          Broken classify (string m.1 ++ 58 :: write text string m.2) := by
        intro m hm hbad
        cases hkey : q m.1 with
        | true =>
            rw [hkey, Bool.true_and] at hbad
            exact (hq m.1 hkey).append_broken (Broken.punct_cons (p := .colon) rfl (ih m hm (ht m hm) hbad))
        | false => exact (hbroken m.1 hkey).append _
      rw [write_obj, List.cons_append]
      refine Broken.punct_cons (p := .lbrace) rfl (Broken.append (broken_intercalate ?_ ?_) _)
      · intro n hn
        cases hgood : q n.1 && n.2.allStrs q with
        | true =>
            obtain ⟨hkey, hvalue⟩ := Bool.and_eq_true_iff.mp hgood
            exact Or.inl ⟨_, ((Spells.write hp hq (ht n hn) hvalue).punct_cons
              (p := .colon) rfl).str_cons (hq n.1 hkey)⟩
        | false => exact Or.inr (hmember n hn hgood)
      · exact ⟨m, hmem, hmember m hmem (by simpa using hbad)⟩

end Broken

/-- A quotation mark that a letter follows breaks the string it is in. -/
theorem broken_of_quote {units : Units} {cs rest : List ℕ} {c : ℕ}
    (hcs : ∀ out : List (Token W), lexRun classify ⟨out, .between⟩ cs = some ⟨out, .str units⟩)
    (hc : isWordCode c = true) : Broken classify (cs ++ 34 :: c :: rest) := by
  intro out st hrun
  have hquote : lexStep classify ⟨out, .str units⟩ 34 = some ⟨out ++ [.str units], .between⟩ := rfl
  have hletter : lexStep classify ⟨out ++ [.str units], .between⟩ c =
      some ⟨out ++ [.str units], .word [c]⟩ := by
    obtain ⟨hspace, hne⟩ := isWordCode_ne hc
    simp [lexStep, lexBetween, hspace, hne, hc]
  rw [lexRun_append, hcs, Option.bind_some, lexRun_cons, hquote, Option.bind_some, lexRun_cons,
    hletter, Option.bind_some] at hrun
  exact marked_lexRun (Or.inr ⟨[c], out, units, rfl, rfl⟩) hrun

end SwarmAuth.Json
