import SwarmAuth.Lib.JsonText
import SwarmAuth.Lib.Numeral

/-!
# Reading word by word

The grammar is unambiguous: a token sequence that parses is the tokens of the tree it
parses to. Dialects that differ only in what they take a word for therefore read the same
tree, word by word; where one of them refuses a word, it refuses the text.

## Main definitions

* `parseTokens_eq_some` — the grammar is unambiguous.
* `Tree.traverse` — every scalar replaced, where each can be.
* `parse_traverse` — two dialects read the same tree.
-/
namespace SwarmAuth.Json
variable {W W' S : Type}

/-! ## The grammar is unambiguous -/

/-- The tokens an open container has taken. -/
def Frame.taken : Frame W → List (Token W)
  | .items read => .lbrack :: read.flatMap fun t => tokens t ++ [.comma]
  | .members read key =>
      (.lbrace :: read.flatMap fun m => .str m.1 :: .colon :: tokens m.2 ++ [.comma]) ++
        [.str key, .colon]

/-- The tokens that open containers have taken, the innermost first. -/
def takenBy (stack : List (Frame W)) : List (Token W) := stack.reverse.flatMap Frame.taken

/-- The tokens a state has taken. -/
def ParseState.taken : ParseState W → List (Token W)
  | .value stack => takenBy stack
  | .arrayStart stack => takenBy stack ++ [.lbrack]
  | .arrayNext read stack => takenBy stack ++ .lbrack :: commaSep (read.map tokens)
  | .objectStart stack => takenBy stack ++ [.lbrace]
  | .objectKey read stack =>
      takenBy stack ++ .lbrace :: read.flatMap fun m => .str m.1 :: .colon :: tokens m.2 ++ [.comma]
  | .objectColon read key stack =>
      takenBy stack ++ (.lbrace :: read.flatMap fun m => .str m.1 :: .colon :: tokens m.2 ++ [.comma]) ++
        [.str key]
  | .objectNext read stack =>
      takenBy stack ++ .lbrace :: commaSep (read.map fun m => .str m.1 :: .colon :: tokens m.2)
  | .complete t => tokens t

@[simp] theorem takenBy_nil : takenBy ([] : List (Frame W)) = [] := rfl
@[simp] theorem takenBy_cons (frame : Frame W) (stack : List (Frame W)) :
    takenBy (frame :: stack) = takenBy stack ++ frame.taken := by
  simp [takenBy]

/-- One more group after groups that each end in a comma. -/
theorem commaSep_concat (gs : List (List (Token W))) (g : List (Token W)) :
    commaSep (gs ++ [g]) = gs.flatMap (fun g => g ++ [.comma]) ++ g := by
  induction gs with
  | nil => simp [commaSep]
  | cons g' gs ih =>
      rw [List.cons_append, commaSep_cons, List.map_append, List.flatten_append]
      cases gs with
      | nil => simp
      | cons g'' gs =>
          rw [List.cons_append, commaSep_cons] at ih
          rw [List.flatMap_cons, List.append_assoc, ← ih]
          simp

/-- Groups, and then a comma. -/
theorem commaSep_comma {gs : List (List (Token W))} (h : gs ≠ []) :
    commaSep gs ++ [.comma] = gs.flatMap fun g => g ++ [.comma] := by
  obtain ⟨init, g, rfl⟩ := List.eq_nil_or_concat gs |>.resolve_left h
  rw [List.concat_eq_append, commaSep_concat, List.flatMap_append, List.flatMap_singleton,
    List.append_assoc]

theorem taken_deliver (t : Tree W Units) (stack : List (Frame W)) :
    (deliver t stack).taken = takenBy stack ++ tokens t := by
  cases stack with
  | nil => rfl
  | cons frame stack =>
      cases frame with
      | items read =>
          simp only [deliver, ParseState.taken, takenBy_cons, Frame.taken, List.map_append,
            List.map_cons, List.map_nil, commaSep_concat, List.flatMap_map]
          simp
      | members read key =>
          simp only [deliver, ParseState.taken, takenBy_cons, Frame.taken, List.map_append,
            List.map_cons, List.map_nil, commaSep_concat, List.flatMap_map]
          simp

/-- A container whose next value is awaited has one already. -/
def ParseState.Filled : ParseState W → Prop
  | .arrayNext read _ => read ≠ []
  | .objectNext read _ => read ≠ []
  | _ => True

theorem filled_deliver (t : Tree W Units) (stack : List (Frame W)) : (deliver t stack).Filled := by
  cases stack with
  | nil => trivial
  | cons frame stack => cases frame <;> simp [deliver, ParseState.Filled]

theorem taken_startValue {stack : List (Frame W)} {tok : Token W} {st : ParseState W}
    (h : startValue stack tok = some st) : st.Filled ∧ st.taken = takenBy stack ++ [tok] := by
  unfold startValue at h
  split at h
  · rw [← Option.some.inj h]
    exact ⟨filled_deliver _ _, taken_deliver _ _⟩
  · rw [← Option.some.inj h]
    exact ⟨filled_deliver _ _, taken_deliver _ _⟩
  · rw [← Option.some.inj h]
    exact ⟨trivial, rfl⟩
  · rw [← Option.some.inj h]
    exact ⟨trivial, rfl⟩
  · exact nomatch h

/-- A token is taken. -/
theorem taken_parseStep {st st' : ParseState W} {tok : Token W} (hst : st.Filled)
    (h : parseStep st tok = some st') : st'.Filled ∧ st'.taken = st.taken ++ [tok] := by
  unfold parseStep at h
  split at h
  · exact taken_startValue h
  · rw [← Option.some.inj h]
    refine ⟨filled_deliver _ _, ?_⟩
    rw [taken_deliver]
    simp [ParseState.taken, commaSep]
  · obtain ⟨hfilled, htaken⟩ := taken_startValue h
    refine ⟨hfilled, ?_⟩
    rw [htaken]
    simp [ParseState.taken, Frame.taken]
  · rw [← Option.some.inj h]
    refine ⟨trivial, ?_⟩
    have hne : ∀ read : List (Tree W Units), read ≠ [] → read.map tokens ≠ [] := by simp
    simp only [ParseState.taken, takenBy_cons, Frame.taken, List.append_assoc, List.cons_append]
    rw [commaSep_comma (hne _ hst), List.flatMap_map]
  · rw [← Option.some.inj h]
    refine ⟨filled_deliver _ _, ?_⟩
    rw [taken_deliver]
    simp [ParseState.taken]
  · rw [← Option.some.inj h]
    refine ⟨filled_deliver _ _, ?_⟩
    rw [taken_deliver]
    simp [ParseState.taken, commaSep]
  · rw [← Option.some.inj h]
    exact ⟨trivial, by simp [ParseState.taken]⟩
  · rw [← Option.some.inj h]
    exact ⟨trivial, by simp [ParseState.taken]⟩
  · rw [← Option.some.inj h]
    exact ⟨trivial, by simp [ParseState.taken, Frame.taken]⟩
  · rw [← Option.some.inj h]
    refine ⟨trivial, ?_⟩
    have hne : ∀ read : List (Units × Tree W Units), read ≠ [] →
        (read.map fun m => Token.str m.1 :: .colon :: tokens m.2) ≠ [] := by simp
    simp only [ParseState.taken, List.append_assoc, List.cons_append]
    rw [commaSep_comma (hne _ hst), List.flatMap_map]
    rfl
  · rw [← Option.some.inj h]
    refine ⟨filled_deliver _ _, ?_⟩
    rw [taken_deliver]
    simp [ParseState.taken]
  · cases h

theorem taken_parseRun {st st' : ParseState W} {toks : List (Token W)} (hst : st.Filled)
    (h : parseRun st toks = some st') : st'.taken = st.taken ++ toks := by
  induction toks generalizing st with
  | nil =>
      rw [parseRun_nil, Option.some.injEq] at h
      rw [h, List.append_nil]
  | cons tok toks ih =>
      rw [parseRun_cons] at h
      obtain ⟨mid, hmid, h⟩ := Option.bind_eq_some_iff.mp h
      obtain ⟨hfilled, htaken⟩ := taken_parseStep hst hmid
      rw [ih hfilled h, htaken]
      simp

/-- **The grammar is unambiguous**: what parses to a tree is the tokens of the tree. -/
theorem parseTokens_eq_some {toks : List (Token W)} {t : Tree W Units} :
    parseTokens toks = some t ↔ toks = tokens t := by
  constructor
  · intro h
    unfold parseTokens at h
    split at h
    · have hstart : (ParseState.value [] : ParseState W).Filled := trivial
      have htaken := taken_parseRun hstart ‹_›
      rw [← Option.some.inj h]
      simpa [ParseState.taken] using htaken.symm
    · exact nomatch h
  · intro h
    rw [h, parseTokens_tokens]

/-! ## Words of two dialects -/

/-- Numbers are words. -/
theorem isWordCode_of_isNumeralCode {c : ℕ} (h : isNumeralCode c = true) : isWordCode c = true := by
  simp only [isNumeralCode, isDigit, Bool.or_eq_true, Bool.and_eq_true, decide_eq_true_eq] at h
  simp only [isWordCode, Bool.or_eq_true, Bool.and_eq_true, decide_eq_true_eq]
  omega

/-- A token, its word read by `f`. -/
def Token.traverse (f : W → Option W') : Token W → Option (Token W')
  | .lbrack => some .lbrack
  | .rbrack => some .rbrack
  | .lbrace => some .lbrace
  | .rbrace => some .rbrace
  | .colon => some .colon
  | .comma => some .comma
  | .str s => some (.str s)
  | .word w => (f w).map .word

/-- A map that succeeds everywhere. -/
theorem mapM_some {α β : Type} {f : α → Option β} {g : α → β} {l : List α}
    (h : ∀ a ∈ l, f a = some (g a)) : l.mapM f = some (l.map g) := by
  induction l with
  | nil => rfl
  | cons a l ih =>
      rw [List.mapM_cons, h a List.mem_cons_self, ih fun b hb => h b (List.mem_cons_of_mem a hb)]
      rfl

theorem mapM_congr {α β : Type} {f g : α → Option β} {l : List α} (h : ∀ a ∈ l, f a = g a) :
    l.mapM f = l.mapM g := by
  induction l with
  | nil => rfl
  | cons a l ih =>
      rw [List.mapM_cons, List.mapM_cons, h a List.mem_cons_self,
        ih fun b hb => h b (List.mem_cons_of_mem a hb)]

theorem exists_of_mapM {α β : Type} {f : α → Option β} {l : List α} {out : List β}
    (h : l.mapM f = some out) : ∀ a ∈ l, ∃ b, f a = some b := by
  induction l generalizing out with
  | nil => simp
  | cons a l ih =>
      rw [List.mapM_cons] at h
      obtain ⟨b, hb, h⟩ := Option.bind_eq_some_iff.mp h
      obtain ⟨bs, hbs, -⟩ := Option.bind_eq_some_iff.mp h
      exact List.forall_mem_cons.mpr ⟨⟨b, hb⟩, ih hbs⟩

/-- Every scalar of the tree read by `f`, where each can be. -/
def Tree.traverse (f : W → Option W') : Tree W S → Option (Tree W' S) :=
  Tree.fold (fun w => (f w).map .scalar) (fun s => some (.str s)) (fun rs => (rs.mapM id).map .arr)
    fun ms => (ms.mapM fun m : S × Option (Tree W' S) => m.2.map fun t => (m.1, t)).map .obj

section Traverse
variable (f : W → Option W')

@[simp] theorem Tree.traverse_scalar (w : W) :
    Tree.traverse f (.scalar w : Tree W S) = (f w).map .scalar := rfl
@[simp] theorem Tree.traverse_str (s : S) :
    Tree.traverse f (.str s : Tree W S) = some (.str s) := rfl
@[simp] theorem Tree.traverse_arr (ts : List (Tree W S)) :
    Tree.traverse f (.arr ts) = (ts.mapM (Tree.traverse f)).map .arr := by
  rw [Tree.traverse, Tree.fold_arr, List.mapM_map]
  rfl
@[simp] theorem Tree.traverse_obj (ms : List (S × Tree W S)) :
    Tree.traverse f (.obj ms) =
      (ms.mapM fun m => (Tree.traverse f m.2).map fun t => (m.1, t)).map .obj := by
  rw [Tree.traverse, Tree.fold_obj, List.mapM_map]
  rfl

/-- Where every scalar is read, the scalars are replaced. -/
theorem Tree.traverse_of_allScalars {f : W → Option W'} {p : W → Bool} {g : W → W'}
    (h : ∀ w, p w = true → f w = some (g w)) {t : Tree W S} (ht : t.allScalars p = true) :
    t.traverse f = some (t.mapScalars g) := by
  induction t using Tree.ind with
  | scalar w => rw [Tree.traverse_scalar, h w ht]; rfl
  | str s => rfl
  | arr items ih =>
      rw [Tree.allScalars_arr, List.all_eq_true] at ht
      have hitems : items.mapM (Tree.traverse f) = some (items.map (Tree.mapScalars g)) :=
        mapM_some fun t hmem => ih t hmem (ht t hmem)
      rw [Tree.traverse_arr, hitems, Tree.mapScalars_arr]
      rfl
  | obj members ih =>
      rw [Tree.allScalars_obj, List.all_eq_true] at ht
      have hmembers : (members.mapM fun m => (Tree.traverse f m.2).map fun t => (m.1, t)) =
          some (members.map fun m => (m.1, Tree.mapScalars g m.2)) :=
        mapM_some fun m hmem => by rw [ih m hmem (ht m hmem)]; rfl
      rw [Tree.traverse_obj, hmembers, Tree.mapScalars_obj]
      rfl

theorem Tree.traverse_mapScalars {W₀ : Type} (f : W → Option W') (g : W₀ → W) (t : Tree W₀ S) :
    (t.mapScalars g).traverse f = t.traverse fun w => f (g w) := by
  induction t using Tree.ind with
  | scalar w => rfl
  | str s => rfl
  | arr items ih =>
      rw [Tree.mapScalars_arr, Tree.traverse_arr, Tree.traverse_arr, List.mapM_map]
      congr 1
      exact mapM_congr ih
  | obj members ih =>
      rw [Tree.mapScalars_obj, Tree.traverse_obj, Tree.traverse_obj, List.mapM_map]
      congr 1
      exact mapM_congr fun m hm => by rw [Function.comp_apply, ih m hm]

theorem mapM_commaSep {α β : Type} {f : W → Option W'} {r : α → Option β} {F : α → List (Token W)}
    {G : β → List (Token W')} {as : List α}
    (h : ∀ a ∈ as, (F a).mapM (Token.traverse f) = (r a).map G) :
    (commaSep (as.map F)).mapM (Token.traverse f) =
      (as.mapM r).map fun bs => commaSep (bs.map G) := by
  have hflat : ∀ as : List α, (∀ a ∈ as, (F a).mapM (Token.traverse f) = (r a).map G) →
      ((as.map fun a => .comma :: F a).flatten).mapM (Token.traverse f) =
        (as.mapM r).map fun bs => (bs.map fun b => .comma :: G b).flatten := by
    intro as h
    induction as with
    | nil => rfl
    | cons a as ih =>
        have ha := h a List.mem_cons_self
        have has := ih fun b hb => h b (List.mem_cons_of_mem a hb)
        rw [List.map_cons, List.flatten_cons, List.mapM_append, List.mapM_cons, ha, has,
          List.mapM_cons]
        cases r a <;> cases as.mapM r <;> rfl
  cases as with
  | nil => rfl
  | cons a as =>
      have ha := h a List.mem_cons_self
      have has := hflat as fun b hb => h b (List.mem_cons_of_mem a hb)
      rw [List.map_cons, commaSep_cons, List.mapM_append, ha, List.mapM_cons, List.map_map]
      simp only [Function.comp_def, has]
      cases r a with
      | none => rfl
      | some b =>
          cases as.mapM r with
          | none => rfl
          | some bs =>
              simp only [Option.map_some, Option.bind_eq_bind, Option.bind_some, List.map_cons,
                commaSep_cons, Option.pure_def, List.map_map, Function.comp_def]

/-- The tokens of a tree are read word by word. -/
theorem mapM_tokens (f : W → Option W') (t : Tree W Units) :
    (tokens t).mapM (Token.traverse f) = (t.traverse f).map tokens := by
  induction t using Tree.ind with
  | scalar w => cases h : f w <;> simp [Token.traverse, h]
  | str s => rfl
  | arr items ih =>
      rw [tokens_arr, Tree.traverse_arr, List.mapM_append, List.mapM_cons, mapM_commaSep ih]
      cases items.mapM (Tree.traverse f) <;> simp [Token.traverse]
  | obj members ih =>
      have hmember : ∀ m ∈ members,
          (Token.str m.1 :: .colon :: tokens m.2).mapM (Token.traverse f) =
            ((Tree.traverse f m.2).map fun t => (m.1, t)).map
              fun m => .str m.1 :: .colon :: tokens m.2 := by
        intro m hm
        rw [List.mapM_cons, List.mapM_cons, ih m hm]
        cases Tree.traverse f m.2 <;> rfl
      rw [tokens_obj, Tree.traverse_obj, List.mapM_append, List.mapM_cons, mapM_commaSep hmember]
      cases members.mapM fun m => (Tree.traverse f m.2).map fun t => (m.1, t) <;>
        simp [Token.traverse]

/-- A lexer state, the words of its tokens read. -/
def LexState.traverse (f : W → Option W') (st : LexState W) : Option (LexState W') :=
  (st.out.mapM (Token.traverse f)).map fun out => ⟨out, st.mode⟩

theorem traverse_concat (f : W → Option W') (out : List (Token W)) (tok : Token W) (mode : LexMode) :
    LexState.traverse f ⟨out ++ [tok], mode⟩ =
      (out.mapM (Token.traverse f)).bind fun out' =>
        (tok.traverse f).map fun tok' => ⟨out' ++ [tok'], mode⟩ := by
  rw [LexState.traverse, List.mapM_append, List.mapM_cons]
  cases out.mapM (Token.traverse f) with
  | none => rfl
  | some out' => cases tok.traverse f <;> rfl

theorem traverse_lexBetween {f : W → Option W'} {out : List (Token W)} {ch : ℕ} {st : LexState W}
    (h : lexBetween out ch = some st) :
    st.traverse f = (out.mapM (Token.traverse f)).bind fun out' => lexBetween out' ch := by
  have hmode : ∀ mode, LexState.traverse f ⟨out, mode⟩ =
      (out.mapM (Token.traverse f)).bind fun out' => some ⟨out', mode⟩ := by
    intro mode
    rw [LexState.traverse]
    cases out.mapM (Token.traverse f) <;> rfl
  rw [lexBetween] at h
  split_ifs at h with h1 h2 h3
  · rw [← Option.some.inj h, hmode]
    simp only [lexBetween, if_pos h1]
  · rw [← Option.some.inj h, hmode]
    simp only [lexBetween, if_neg h1, if_pos h2]
  · rw [← Option.some.inj h, hmode]
    simp only [lexBetween, if_neg h1, if_neg h2, if_pos h3]
  · obtain ⟨tok, htok, rfl⟩ := Option.map_eq_some_iff.mp h
    have hpunct : ∃ tok' : Token W', punct ch = some tok' ∧ tok.traverse f = some tok' := by
      unfold punct at htok ⊢
      split at htok <;> first
        | (rw [← Option.some.inj htok]; exact ⟨_, rfl, rfl⟩)
        | cases htok
    obtain ⟨tok', hpunct, htok'⟩ := hpunct
    rw [traverse_concat, htok']
    simp only [lexBetween, if_neg h1, if_neg h2, if_neg h3, hpunct, Option.map_some]

section Dialects
variable {c₀ : List ℕ → Option W} {c : List ℕ → Option W'} {f : W → Option W'}
  (hc : ∀ s a, c₀ s = some a → c s = f a)
include hc

/-- A step of one dialect is one of the other. -/
theorem traverse_lexStep {st st' : LexState W} {ch : ℕ} (h : lexStep c₀ st ch = some st') :
    st'.traverse f = (st.traverse f).bind fun s => lexStep c s ch := by
  obtain ⟨out, mode⟩ := st
  have hlift : ∀ k : LexState W' → Option (LexState W'),
      (LexState.traverse f ⟨out, mode⟩).bind k =
        (out.mapM (Token.traverse f)).bind fun out' => k ⟨out', mode⟩ := by
    intro k
    rw [LexState.traverse]
    cases out.mapM (Token.traverse f) <;> rfl
  have hsame : ∀ (mode' : LexMode) (k : List (Token W') → Option (LexState W')),
      (∀ out', k out' = some ⟨out', mode'⟩) →
        LexState.traverse f ⟨out, mode'⟩ = (out.mapM (Token.traverse f)).bind k := by
    intro mode' k hk
    rw [LexState.traverse]
    cases out.mapM (Token.traverse f) with
    | none => rfl
    | some out' => exact (hk out').symm
  rw [hlift]
  cases mode with
  | between => exact traverse_lexBetween h
  | word text =>
      simp only [lexStep] at h ⊢
      split_ifs at h ⊢ with hword
      · rw [← Option.some.inj h]
        exact hsame _ _ fun _ => rfl
      · obtain ⟨w, hw, h⟩ := Option.bind_eq_some_iff.mp h
        rw [traverse_lexBetween h, List.mapM_append, List.mapM_cons, hc text w hw]
        cases out.mapM (Token.traverse f) with
        | none => rfl
        | some out' => cases hf : f w <;> simp [Token.traverse, hf]
  | str units =>
      simp only [lexStep] at h ⊢
      split_ifs at h ⊢ with h1 h2 h3
      · rw [← Option.some.inj h, traverse_concat]
        rfl
      · rw [← Option.some.inj h]
        exact hsame _ _ fun _ => rfl
      · rw [← Option.some.inj h]
        exact hsame _ _ fun _ => rfl
  | esc units =>
      simp only [lexStep] at h ⊢
      split_ifs at h ⊢ with h1
      · rw [← Option.some.inj h]
        exact hsame _ _ fun _ => rfl
      · obtain ⟨u, hu, rfl⟩ := Option.map_eq_some_iff.mp h
        exact hsame _ _ fun _ => by rw [hu]; rfl
  | hex units digits value =>
      simp only [lexStep] at h ⊢
      obtain ⟨d, hd, rfl⟩ := Option.map_eq_some_iff.mp h
      rw [hd]
      split_ifs with h3
      · exact hsame _ _ fun _ => by simp
      · exact hsame _ _ fun _ => by simp

theorem traverse_lexRun {st st' : LexState W} {text : List ℕ} (h : lexRun c₀ st text = some st') :
    st'.traverse f = (st.traverse f).bind fun s => lexRun c s text := by
  induction text generalizing st with
  | nil =>
      rw [lexRun_nil, Option.some.injEq] at h
      rw [h]
      simp
  | cons ch text ih =>
      rw [lexRun_cons] at h
      obtain ⟨mid, hmid, h⟩ := Option.bind_eq_some_iff.mp h
      rw [ih h, traverse_lexStep hc hmid, Option.bind_assoc]
      rfl

/-- The tokens of one dialect, their words read, are those of the other. -/
theorem lex_traverse {text : List ℕ} {toks : List (Token W)} (h : lex c₀ text = some toks) :
    lex c text = toks.mapM (Token.traverse f) := by
  obtain ⟨st, hrun, hset⟩ := Option.bind_eq_some_iff.mp h
  have hstart : LexState.traverse f ⟨[], .between⟩ = some ⟨[], .between⟩ := rfl
  have hsquare := traverse_lexRun hc hrun
  rw [hstart, Option.bind_some] at hsquare
  rw [lex, ← hsquare]
  obtain ⟨out, mode⟩ := st
  cases mode with
  | between =>
      obtain rfl : out = toks := Option.some.inj hset
      rw [LexState.traverse]
      cases out.mapM (Token.traverse f) <;> rfl
  | word text' =>
      obtain ⟨w, hw, rfl⟩ := Option.map_eq_some_iff.mp hset
      rw [LexState.traverse, List.mapM_append, List.mapM_cons]
      cases out.mapM (Token.traverse f) with
      | none => rfl
      | some out' =>
          simp only [Option.map_some, Option.bind_some, settle, hc text' w hw]
          cases hf : f w <;> simp [Token.traverse, hf]
  | str units => cases hset
  | esc units => cases hset
  | hex units digits value => cases hset

/-- **Two dialects read the same tree**, its words each in its own way. -/
theorem parse_traverse {text : List ℕ} {t : Tree W Units} (h : parse c₀ text = some t) :
    parse c text = t.traverse f := by
  obtain ⟨toks, hlex, htoks⟩ := Option.bind_eq_some_iff.mp h
  rw [parseTokens_eq_some] at htoks
  rw [parse, lex_traverse hc hlex, htoks, mapM_tokens]
  cases t.traverse f with
  | none => rfl
  | some t' => exact parseTokens_tokens t'

end Dialects

/-- What every word is, every scalar of a tree that was read is. -/
theorem allScalars_parse {c : List ℕ → Option W} {p : W → Bool}
    (hp : ∀ s w, c s = some w → p w = true) {text : List ℕ} {t : Tree W Units}
    (h : parse c text = some t) : t.allScalars p = true := by
  have hc : ∀ s a, c s = some a → c s = (if p a then some a else none) := by
    intro s a ha
    rw [if_pos (hp s a ha), ha]
  have hself := parse_traverse hc h
  rw [h] at hself
  clear h hc
  have hall : ∀ {t t' : Tree W Units}, t.traverse (fun a => if p a then some a else none) = some t' →
      t.allScalars p = true := by
    intro t
    induction t using Tree.ind with
    | scalar w =>
        intro t' ht
        rw [Tree.traverse_scalar] at ht
        split_ifs at ht with hw
        · exact hw
        · exact nomatch ht
    | str s => intro _ _; rfl
    | arr items ih =>
        intro t' ht
        rw [Tree.traverse_arr] at ht
        obtain ⟨ts, hts, -⟩ := Option.map_eq_some_iff.mp ht
        rw [Tree.allScalars_arr, List.all_eq_true]
        intro u hu
        obtain ⟨u', hu'⟩ := exists_of_mapM hts u hu
        exact ih u hu hu'
    | obj members ih =>
        intro t' ht
        rw [Tree.traverse_obj] at ht
        obtain ⟨ts, hts, -⟩ := Option.map_eq_some_iff.mp ht
        rw [Tree.allScalars_obj, List.all_eq_true]
        intro m hm
        obtain ⟨m', hm'⟩ := exists_of_mapM hts m hm
        obtain ⟨u, hu, -⟩ := Option.map_eq_some_iff.mp hm'
        exact ih m hm hu
  exact hall hself.symm

end Traverse
end SwarmAuth.Json
