import SwarmAuth.Lib.JsonTree
import SwarmAuth.Lib.Unicode

/-!
# JSON text

The JSON grammar over text given as character codes `ℕ` (code points or UTF-16 units).
`lex` is a character automaton producing tokens, `parseTokens` a pushdown automaton
over the tokens; both run as left folds, so a run over `a ++ b` is the run over `a`
followed by the run over `b`. What a bare word (a number, `true`, `null`, …) denotes
is a parameter `classify`, because dialects differ there. `render` writes a tree
without whitespace, every string unit outside printable ASCII escaped.

## Main definitions

* `lex`, `parseTokens`, `parse` — reading.
* `tokens`, `render` — writing.
* `parse_render` — what `render` writes, `parse` reads back.
-/
namespace SwarmAuth.Json

/-- The codes of an ASCII literal. -/
def codes (s : String) : List ℕ := s.toList.map Char.toNat

/-- Lexical tokens. -/
inductive Token (W : Type) where
  | lbrack | rbrack | lbrace | rbrace | colon | comma
  | str (units : Units)
  | word (w : W)
  deriving DecidableEq, Repr

variable {W : Type}

/-! ## Lexing -/

/-- What the lexer is in the middle of. -/
inductive LexMode where
  | between
  | word (text : List ℕ)
  | str (units : Units)
  | esc (units : Units)
  | hex (units : Units) (digits value : ℕ)
  deriving DecidableEq, Repr

/-- The tokens read so far and the unfinished one. -/
structure LexState (W : Type) where
  out : List (Token W)
  mode : LexMode
  deriving DecidableEq, Repr

/-- Digits, letters, `+`, `-` and `.`: the characters of numbers and literals. -/
def isWordCode (c : ℕ) : Bool :=
  (48 ≤ c && c ≤ 57) || (65 ≤ c && c ≤ 90) || (97 ≤ c && c ≤ 122) || c = 43 || c = 45 || c = 46

/-- Space, tab, line feed, carriage return. -/
def isSpace (c : ℕ) : Bool := c = 32 || c = 9 || c = 10 || c = 13

/-- The structural characters. -/
def punct : ℕ → Option (Token W)
  | 91 => some .lbrack
  | 93 => some .rbrack
  | 123 => some .lbrace
  | 125 => some .rbrace
  | 58 => some .colon
  | 44 => some .comma
  | _ => none

/-- What a one-letter escape stands for. -/
def simpleEscape : ℕ → Option UInt16
  | 34 => some 34
  | 92 => some 92
  | 47 => some 47
  | 98 => some 8
  | 102 => some 12
  | 110 => some 10
  | 114 => some 13
  | 116 => some 9
  | _ => none

/-- The value of a hexadecimal digit. -/
def hexValue (c : ℕ) : Option ℕ :=
  if 48 ≤ c ∧ c ≤ 57 then some (c - 48)
  else if 97 ≤ c ∧ c ≤ 102 then some (c - 87)
  else if 65 ≤ c ∧ c ≤ 70 then some (c - 55)
  else none

/-- One character between tokens. -/
def lexBetween (out : List (Token W)) (c : ℕ) : Option (LexState W) :=
  if isSpace c then some ⟨out, .between⟩
  else if c = 34 then some ⟨out, .str []⟩
  else if isWordCode c then some ⟨out, .word [c]⟩
  else (punct c).map fun t => ⟨out ++ [t], .between⟩

/-- One character. -/
def lexStep (classify : List ℕ → Option W) (st : LexState W) (c : ℕ) :
    Option (LexState W) :=
  match st.mode with
  | .between => lexBetween st.out c
  | .word text =>
      if isWordCode c then some ⟨st.out, .word (text ++ [c])⟩
      else (classify text).bind fun w => lexBetween (st.out ++ [.word w]) c
  | .str units =>
      if c = 34 then some ⟨st.out ++ [.str units], .between⟩
      else if c = 92 then some ⟨st.out, .esc units⟩
      else if c < 32 then none
      else some ⟨st.out, .str (units ++ unitsOf c)⟩
  | .esc units =>
      if c = 117 then some ⟨st.out, .hex units 0 0⟩
      else (simpleEscape c).map fun u => ⟨st.out, .str (units ++ [u])⟩
  | .hex units digits value =>
      (hexValue c).map fun d =>
        if digits = 3 then ⟨st.out, .str (units ++ [UInt16.ofNat (16 * value + d)])⟩
        else ⟨st.out, .hex units (digits + 1) (16 * value + d)⟩

/-- A run of the lexer. -/
def lexRun (classify : List ℕ → Option W) (st : LexState W) (text : List ℕ) :
    Option (LexState W) := text.foldlM (lexStep classify) st

/-- Close the token a text may end in. -/
def settle (classify : List ℕ → Option W) (st : LexState W) : Option (List (Token W)) :=
  match st.mode with
  | .between => some st.out
  | .word text => (classify text).map fun w => st.out ++ [.word w]
  | _ => none

/-- The tokens of a text. -/
def lex (classify : List ℕ → Option W) (text : List ℕ) : Option (List (Token W)) :=
  (lexRun classify ⟨[], .between⟩ text).bind (settle classify)

/-! ## Parsing -/

/-- An open array, or an open object with the key whose value is due. -/
inductive Frame (W : Type) where
  | items (read : List (Tree W Units))
  | members (read : List (Units × Tree W Units)) (key : Units)

/-- What the grammar admits next. -/
inductive ParseState (W : Type) where
  | value (stack : List (Frame W))
  | arrayStart (stack : List (Frame W))
  | arrayNext (read : List (Tree W Units)) (stack : List (Frame W))
  | objectStart (stack : List (Frame W))
  | objectKey (read : List (Units × Tree W Units)) (stack : List (Frame W))
  | objectColon (read : List (Units × Tree W Units)) (key : Units) (stack : List (Frame W))
  | objectNext (read : List (Units × Tree W Units)) (stack : List (Frame W))
  | complete (t : Tree W Units)

/-- Hand a finished value to the innermost open container. -/
def deliver (t : Tree W Units) : List (Frame W) → ParseState W
  | [] => .complete t
  | .items read :: stack => .arrayNext (read ++ [t]) stack
  | .members read key :: stack => .objectNext (read ++ [(key, t)]) stack

/-- A token where a value is due. -/
def startValue (stack : List (Frame W)) : Token W → Option (ParseState W)
  | .word w => some (deliver (.scalar w) stack)
  | .str s => some (deliver (.str s) stack)
  | .lbrack => some (.arrayStart stack)
  | .lbrace => some (.objectStart stack)
  | _ => none

/-- One token. -/
def parseStep : ParseState W → Token W → Option (ParseState W)
  | .value stack, tok => startValue stack tok
  | .arrayStart stack, .rbrack => some (deliver (.arr []) stack)
  | .arrayStart stack, tok => startValue (.items [] :: stack) tok
  | .arrayNext read stack, .comma => some (.value (.items read :: stack))
  | .arrayNext read stack, .rbrack => some (deliver (.arr read) stack)
  | .objectStart stack, .rbrace => some (deliver (.obj []) stack)
  | .objectStart stack, .str key => some (.objectColon [] key stack)
  | .objectKey read stack, .str key => some (.objectColon read key stack)
  | .objectColon read key stack, .colon => some (.value (.members read key :: stack))
  | .objectNext read stack, .comma => some (.objectKey read stack)
  | .objectNext read stack, .rbrace => some (deliver (.obj read) stack)
  | _, _ => none

/-- A run of the parser. -/
def parseRun (st : ParseState W) (toks : List (Token W)) : Option (ParseState W) :=
  toks.foldlM parseStep st

/-- The value a token sequence denotes, repeated keys kept. -/
def parseTokens (toks : List (Token W)) : Option (Tree W Units) :=
  match parseRun (.value []) toks with
  | some (.complete t) => some t
  | _ => none

/-- The value a text denotes, repeated keys kept. -/
def parse (classify : List ℕ → Option W) (text : List ℕ) : Option (Tree W Units) :=
  (lex classify text).bind parseTokens

/-! ## Writing -/

/-- Comma-separated token groups. -/
def commaSep : List (List (Token W)) → List (Token W)
  | [] => []
  | [g] => g
  | g :: gs => g ++ .comma :: commaSep gs

/-- The tokens of a tree. -/
def tokens : Tree W Units → List (Token W) :=
  Tree.fold (fun w => [.word w]) (fun s => [.str s])
    (fun gs => .lbrack :: commaSep gs ++ [.rbrack])
    (fun ms => .lbrace :: commaSep (ms.map fun m => .str m.1 :: .colon :: m.2) ++ [.rbrace])

@[simp] theorem tokens_scalar (w : W) : tokens (.scalar w) = [.word w] := rfl
@[simp] theorem tokens_str (s : Units) : tokens (.str s : Tree W Units) = [.str s] := rfl
@[simp] theorem tokens_arr (ts : List (Tree W Units)) :
    tokens (.arr ts) = .lbrack :: commaSep (ts.map tokens) ++ [.rbrack] := by simp [tokens]
@[simp] theorem tokens_obj (ms : List (Units × Tree W Units)) :
    tokens (.obj ms) =
      .lbrace :: commaSep (ms.map fun m => .str m.1 :: .colon :: tokens m.2) ++ [.rbrace] := by
  simp [tokens, Function.comp_def]

/-- A lower-case hexadecimal digit. -/
def hexDigit (n : ℕ) : ℕ := if n < 10 then 48 + n else 87 + n

/-- `\uXXXX`. -/
def hexEscape (n : ℕ) : List ℕ :=
  [92, 117, hexDigit (n / 4096 % 16), hexDigit (n / 256 % 16), hexDigit (n / 16 % 16),
    hexDigit (n % 16)]

/-- A string unit as ASCII: the short escapes, `\uXXXX` outside printable ASCII. -/
def escapeUnit (u : UInt16) : List ℕ :=
  let n := u.toNat
  if n = 34 then [92, 34]
  else if n = 92 then [92, 92]
  else if n = 8 then [92, 98]
  else if n = 9 then [92, 116]
  else if n = 10 then [92, 110]
  else if n = 12 then [92, 102]
  else if n = 13 then [92, 114]
  else if n < 32 ∨ 127 ≤ n then hexEscape n
  else [n]

/-- The text of a token. -/
def tokenText (text : W → List ℕ) : Token W → List ℕ
  | .lbrack => [91]
  | .rbrack => [93]
  | .lbrace => [123]
  | .rbrace => [125]
  | .colon => [58]
  | .comma => [44]
  | .str s => 34 :: s.flatMap escapeUnit ++ [34]
  | .word w => text w

/-- The text of a token sequence, without whitespace. -/
def tokensText (text : W → List ℕ) (toks : List (Token W)) : List ℕ :=
  toks.flatMap (tokenText text)

/-- The text of a tree, without whitespace. -/
def render (text : W → List ℕ) (t : Tree W Units) : List ℕ := tokensText text (tokens t)

section Render
variable (text : W → List ℕ)

theorem tokensText_append (a b : List (Token W)) :
    tokensText text (a ++ b) = tokensText text a ++ tokensText text b := List.flatMap_append

/-- Groups of tokens are written with commas between them. -/
theorem tokensText_commaSep (gs : List (List (Token W))) :
    tokensText text (commaSep gs) = [44].intercalate (gs.map (tokensText text)) := by
  induction gs with
  | nil => rfl
  | cons g gs ih =>
      cases gs with
      | nil => simp [commaSep]
      | cons g' gs =>
          have hcomma : commaSep (g :: g' :: gs) = g ++ .comma :: commaSep (g' :: gs) := rfl
          rw [hcomma, tokensText_append, List.map_cons, List.map_cons, List.intercalate_cons_cons,
            ← List.map_cons, ← ih]
          simp [tokensText, tokenText]

@[simp] theorem render_scalar (w : W) : render text (.scalar w) = text w := by
  simp [render, tokensText, tokenText]
@[simp] theorem render_str (s : Units) :
    render text (.str s) = 34 :: s.flatMap escapeUnit ++ [34] := by
  simp [render, tokensText, tokenText]
@[simp] theorem render_arr (ts : List (Tree W Units)) :
    render text (.arr ts) = 91 :: [44].intercalate (ts.map (render text)) ++ [93] := by
  have hcomma := tokensText_commaSep text (ts.map tokens)
  rw [List.map_map] at hcomma
  rw [render, tokens_arr, tokensText_append]
  show 91 :: tokensText text (commaSep _) ++ [93] = _
  rw [hcomma]
  rfl
@[simp] theorem render_obj (ms : List (Units × Tree W Units)) :
    render text (.obj ms) = 123 :: [44].intercalate (ms.map fun m =>
      34 :: m.1.flatMap escapeUnit ++ 34 :: 58 :: render text m.2) ++ [125] := by
  have hcomma := tokensText_commaSep text (ms.map fun m => .str m.1 :: .colon :: tokens m.2)
  rw [List.map_map] at hcomma
  have hmember : (tokensText text ∘ fun m : Units × Tree W Units => .str m.1 :: .colon :: tokens m.2) =
      fun m => 34 :: m.1.flatMap escapeUnit ++ 34 :: 58 :: render text m.2 := by
    funext m
    simp [tokensText, tokenText, render]
  rw [render, tokens_obj, tokensText_append]
  show 123 :: tokensText text (commaSep _) ++ [125] = _
  rw [hcomma, hmember]

/-- A tree as text, its scalars and strings in the given ways. -/
def write {S : Type} (string : S → List ℕ) : Tree W S → List ℕ :=
  Tree.fold text string (fun items => 91 :: [44].intercalate items ++ [93])
    fun members => 123 :: [44].intercalate (members.map fun m => string m.1 ++ 58 :: m.2) ++ [125]

section Write
variable {S : Type} (string : S → List ℕ)

@[simp] theorem write_scalar (w : W) : write text string (.scalar w) = text w := rfl
@[simp] theorem write_str (s : S) : write text string (.str s) = string s := rfl
@[simp] theorem write_arr (ts : List (Tree W S)) : write text string (.arr ts) =
    91 :: [44].intercalate (ts.map (write text string)) ++ [93] := by
  rw [write, Tree.fold_arr]
@[simp] theorem write_obj (ms : List (S × Tree W S)) : write text string (.obj ms) =
    123 :: [44].intercalate (ms.map fun m => string m.1 ++ 58 :: write text string m.2) ++ [125] := by
  rw [write, Tree.fold_obj, List.map_map]
  rfl

/-- What is rendered is written with escaped strings. -/
theorem render_eq_write (t : Tree W Units) :
    render text t = write text (fun s => 34 :: s.flatMap escapeUnit ++ [34]) t := by
  induction t using Tree.ind with
  | scalar w => rw [render_scalar, write_scalar]
  | str s => rw [render_str, write_str]
  | arr items ih => rw [render_arr, write_arr, List.map_congr_left ih]
  | obj members ih =>
      rw [render_obj, write_obj]
      congr 3
      apply List.map_congr_left
      intro m hm
      rw [ih m hm]
      simp

end Write
end Render

/-- The text depends on the scalars' texts only. -/
theorem render_mapScalars {W' : Type} (f : W → W') (text : W' → List ℕ) (t : Tree W Units) :
    render text (t.mapScalars f) = render (fun w => text (f w)) t := by
  induction t using Tree.ind with
  | scalar w => simp
  | str s => simp
  | arr items ih =>
      rw [Tree.mapScalars_arr, render_arr, render_arr, List.map_map]
      congr 3
      exact List.map_congr_left ih
  | obj members ih =>
      rw [Tree.mapScalars_obj, render_obj, render_obj, List.map_map]
      congr 3
      apply List.map_congr_left
      intro m hm
      simp only [Function.comp_apply, ih m hm]

/-! ## What is written is read back -/

section ReadBack
variable (classify : List ℕ → Option W)

@[simp] theorem lexRun_nil (st : LexState W) : lexRun classify st [] = some st := rfl
@[simp] theorem lexRun_cons (st : LexState W) (c : ℕ) (cs : List ℕ) :
    lexRun classify st (c :: cs) =
      (lexStep classify st c).bind fun st' => lexRun classify st' cs := rfl

theorem lexRun_append (st : LexState W) (a b : List ℕ) :
    lexRun classify st (a ++ b) =
      (lexRun classify st a).bind fun st' => lexRun classify st' b :=
  List.foldlM_append ..

theorem parseRun_append (st : ParseState W) (a b : List (Token W)) :
    parseRun st (a ++ b) = (parseRun st a).bind fun st' => parseRun st' b :=
  List.foldlM_append ..

@[simp] theorem parseRun_nil (st : ParseState W) : parseRun st [] = some st := rfl
@[simp] theorem parseRun_cons (st : ParseState W) (t : Token W) (ts : List (Token W)) :
    parseRun st (t :: ts) = (parseStep st t).bind fun st' => parseRun st' ts := rfl

theorem hexValue_hexDigit : ∀ d < 16, hexValue (hexDigit d) = some d := by decide

theorem lexRun_hexEscape (out : List (Token W)) (acc : Units) {n : ℕ} (h : n < 65536) :
    lexRun classify ⟨out, .str acc⟩ (hexEscape n) =
      some ⟨out, .str (acc ++ [UInt16.ofNat n])⟩ := by
  have hd : ∀ m, hexValue (hexDigit (m % 16)) = some (m % 16) := fun m =>
    hexValue_hexDigit _ (Nat.mod_lt m (by decide))
  have hn : 16 * (16 * (16 * (16 * 0 + n / 4096 % 16) + n / 256 % 16) + n / 16 % 16) + n % 16 = n := by
    omega
  have hfirst : lexStep classify ⟨out, .str acc⟩ 92 = some ⟨out, .esc acc⟩ := rfl
  have hsecond : lexStep classify ⟨out, .esc acc⟩ 117 = some ⟨out, .hex acc 0 0⟩ := rfl
  rw [hexEscape, lexRun_cons, hfirst, Option.bind_some, lexRun_cons, hsecond, Option.bind_some]
  simp only [lexRun_cons, lexStep, hd, Option.map_some, Option.bind_some, lexRun_nil,
    Nat.reduceEqDiff, reduceIte, Nat.reduceAdd, hn]

theorem lexRun_escapeUnit (out : List (Token W)) (acc : Units) (u : UInt16) :
    lexRun classify ⟨out, .str acc⟩ (escapeUnit u) = some ⟨out, .str (acc ++ [u])⟩ := by
  have short : ∀ (c : ℕ) (v : UInt16), c ≠ 117 → simpleEscape c = some v → u = v →
      lexRun classify ⟨out, .str acc⟩ [92, c] = some ⟨out, .str (acc ++ [u])⟩ := by
    rintro c v hc hv rfl
    simp [lexStep, hc, hv]
  have eq_of : ∀ v : UInt16, u.toNat = v.toNat → u = v := fun v h => UInt16.toNat_inj.mp h
  simp only [escapeUnit]
  split_ifs with h34 h92 h8 h9 h10 h12 h13 hhex
  · exact short 34 34 (by decide) rfl (eq_of 34 h34)
  · exact short 92 92 (by decide) rfl (eq_of 92 h92)
  · exact short 98 8 (by decide) rfl (eq_of 8 h8)
  · exact short 116 9 (by decide) rfl (eq_of 9 h9)
  · exact short 110 10 (by decide) rfl (eq_of 10 h10)
  · exact short 102 12 (by decide) rfl (eq_of 12 h12)
  · exact short 114 13 (by decide) rfl (eq_of 13 h13)
  · rw [lexRun_hexEscape classify out acc (UInt16.toNat_lt u), UInt16.ofNat_toNat]
  · have hplain : ¬ u.toNat < 32 := fun h => hhex (Or.inl h)
    have hbmp : u.toNat < 65536 := UInt16.toNat_lt u
    simp [lexStep, h34, h92, hplain, unitsOf, hbmp]

theorem lexRun_escapeUnits (out : List (Token W)) (acc s : Units) :
    lexRun classify ⟨out, .str acc⟩ (s.flatMap escapeUnit) = some ⟨out, .str (acc ++ s)⟩ := by
  induction s generalizing acc with
  | nil => simp
  | cons u s ih =>
      rw [List.flatMap_cons, lexRun_append, lexRun_escapeUnit, Option.bind_some, ih]
      simp

/-- A written string token is read as that token. -/
theorem lexRun_strText (text : W → List ℕ) (out : List (Token W)) (s : Units) :
    lexRun classify ⟨out, .between⟩ (tokenText text (.str s)) =
      some ⟨out ++ [.str s], .between⟩ := by
  have hopen : lexStep classify ⟨out, .between⟩ 34 = some ⟨out, .str []⟩ := rfl
  rw [tokenText, List.cons_append, lexRun_cons, hopen, Option.bind_some, lexRun_append,
    lexRun_escapeUnits]
  rfl

/-- A code point outside ASCII as it is. -/
def escapeCode (c : ℕ) : List ℕ := if c < 127 then escapeUnit (UInt16.ofNat c) else [c]

/-- The text of a string, escaped only where JSON asks for it. -/
def rawText (s : Units) : List ℕ := 34 :: (codePoints s).flatMap escapeCode ++ [34]

theorem lexRun_escapeCodes (out : List (Token W)) (acc : Units) (cs : List ℕ) :
    lexRun classify ⟨out, .str acc⟩ (cs.flatMap escapeCode) =
      some ⟨out, .str (acc ++ cs.flatMap unitsOf)⟩ := by
  induction cs generalizing acc with
  | nil => simp
  | cons c cs ih =>
      have hone : lexRun classify ⟨out, .str acc⟩ (escapeCode c) =
          some ⟨out, .str (acc ++ unitsOf c)⟩ := by
        by_cases hc : c < 127
        · have hunit : unitsOf c = [UInt16.ofNat c] := by rw [unitsOf, if_pos (by omega)]
          rw [escapeCode, if_pos hc, lexRun_escapeUnit, hunit]
        · have h34 : c ≠ 34 := by omega
          have h92 : c ≠ 92 := by omega
          have h32 : ¬ c < 32 := by omega
          simp [escapeCode, hc, lexStep, h34, h92, h32]
      rw [List.flatMap_cons, lexRun_append, hone, Option.bind_some, ih]
      simp

theorem lexRun_rawText (out : List (Token W)) (s : Units) :
    lexRun classify ⟨out, .between⟩ (rawText s) = some ⟨out ++ [.str s], .between⟩ := by
  have hopen : lexStep classify ⟨out, .between⟩ 34 = some ⟨out, .str []⟩ := rfl
  rw [rawText, List.cons_append, lexRun_cons, hopen, Option.bind_some, lexRun_append,
    lexRun_escapeCodes, flatMap_unitsOf_codePoints]
  rfl

/-- A character outside words closes the word before it. -/
theorem lexStep_of_settle {st : LexState W} {toks : List (Token W)} {c : ℕ}
    (hst : settle classify st = some toks) (hc : isWordCode c = false) :
    lexStep classify st c = lexBetween toks c := by
  obtain ⟨out, mode⟩ := st
  cases mode with
  | between =>
      obtain rfl : out = toks := by simpa [settle] using hst
      rfl
  | word text =>
      cases hw : classify text with
      | none => simp [settle, hw] at hst
      | some w =>
          obtain rfl : out ++ [.word w] = toks := by simpa [settle, hw] using hst
          simp [lexStep, hc, hw]
  | str units => simp [settle] at hst
  | esc units => simp [settle] at hst
  | hex units digits value => simp [settle] at hst

/-- The text lexes to these tokens, from between tokens. -/
def Spells (cs : List ℕ) (g : List (Token W)) : Prop :=
  ∀ out, ∃ st, lexRun classify ⟨out, .between⟩ cs = some st ∧ settle classify st = some (out ++ g)

/-- The text lexes to one string. -/
def StrText (cs : List ℕ) (s : Units) : Prop :=
  ∀ out, lexRun classify ⟨out, .between⟩ cs = some ⟨out ++ [.str s], .between⟩

theorem lexBetween_punct {c : ℕ} {p : Token W} (h : punct c = some p) :
    isWordCode c = false ∧ ∀ out, lexBetween out c = some ⟨out ++ [p], .between⟩ := by
  have hc : c = 91 ∨ c = 93 ∨ c = 123 ∨ c = 125 ∨ c = 58 ∨ c = 44 := by
    unfold punct at h
    split at h <;> simp_all
  rcases hc with rfl | rfl | rfl | rfl | rfl | rfl <;>
    exact ⟨rfl, fun _ => by rw [← Option.some.inj h]; rfl⟩

variable {classify} {text : W → List ℕ} {g h : List (Token W)} {cs ds : List ℕ}

theorem Spells.nil : Spells classify [] ([] : List (Token W)) := fun out =>
  ⟨⟨out, .between⟩, rfl, by simp [settle]⟩

theorem Spells.punct_cons {c : ℕ} {p : Token W} (hp : punct c = some p)
    (hg : Spells classify cs g) : Spells classify (c :: cs) (p :: g) := by
  intro out
  obtain ⟨st, hrun, hset⟩ := hg (out ++ [p])
  refine ⟨st, ?_, by simpa using hset⟩
  have hstep : lexStep classify ⟨out, .between⟩ c = some ⟨out ++ [p], .between⟩ :=
    (lexBetween_punct hp).2 out
  rw [lexRun_cons, hstep]
  exact hrun

theorem Spells.str_cons {s : Units} (hs : StrText classify ds s)
    (hg : Spells classify cs g) : Spells classify (ds ++ cs) (.str s :: g) := by
  intro out
  obtain ⟨st, hrun, hset⟩ := hg (out ++ [.str s])
  refine ⟨st, ?_, by simpa using hset⟩
  rw [lexRun_append, hs]
  exact hrun

/-- Between two groups a bracket, colon or comma keeps their tokens apart. -/
theorem Spells.append_punct {c : ℕ} {p : Token W} (hg : Spells classify cs g)
    (hp : punct c = some p) (hh : Spells classify ds h) :
    Spells classify (cs ++ c :: ds) (g ++ p :: h) := by
  intro out
  obtain ⟨hword, hlex⟩ := lexBetween_punct hp
  obtain ⟨st, hrun, hset⟩ := hg out
  obtain ⟨st', hrun', hset'⟩ := hh (out ++ g ++ [p])
  refine ⟨st', ?_, by simpa using hset'⟩
  have hstep : lexStep classify st c = some ⟨out ++ g ++ [p], .between⟩ := by
    rw [lexStep_of_settle classify hset hword, hlex]
  rw [lexRun_append, hrun, Option.bind_some, lexRun_cons, hstep]
  exact hrun'

theorem Spells.commaSep {α : Type} {F : α → List ℕ} {G : α → List (Token W)} {as : List α}
    (h : ∀ a ∈ as, Spells classify (F a) (G a)) :
    Spells classify ([44].intercalate (as.map F)) (commaSep (as.map G)) := by
  induction as with
  | nil => exact Spells.nil
  | cons a as ih =>
      cases as with
      | nil =>
          simp only [List.map_cons, List.map_nil, List.intercalate_singleton]
          exact h a List.mem_cons_self
      | cons b as =>
          have hrest := ih fun x hx => h x (List.mem_cons_of_mem a hx)
          have hsep := (h a List.mem_cons_self).append_punct (c := 44) (p := .comma) rfl hrest
          rw [List.map_cons, List.map_cons, List.intercalate_cons_cons, ← List.map_cons]
          simpa [Json.commaSep] using hsep

/-- A word is written as one run of word characters that reads as that word. -/
def WordText (classify : List ℕ → Option W) (text : W → List ℕ) (w : W) : Prop :=
  text w ≠ [] ∧ (∀ c ∈ text w, isWordCode c = true) ∧ classify (text w) = some w

theorem lexRun_word (out : List (Token W)) (acc cs : List ℕ)
    (h : ∀ c ∈ cs, isWordCode c = true) :
    lexRun classify ⟨out, .word acc⟩ cs = some ⟨out, .word (acc ++ cs)⟩ := by
  induction cs generalizing acc with
  | nil => simp
  | cons c cs ih =>
      have hc : lexStep classify ⟨out, .word acc⟩ c = some ⟨out, .word (acc ++ [c])⟩ := by
        simp [lexStep, h c List.mem_cons_self]
      rw [lexRun_cons, hc, Option.bind_some, ih _ fun d hd => h d (List.mem_cons_of_mem c hd)]
      simp

theorem isWordCode_ne {c : ℕ} (h : isWordCode c = true) : isSpace c = false ∧ c ≠ 34 := by
  simp only [isWordCode, Bool.or_eq_true, Bool.and_eq_true, decide_eq_true_eq] at h
  constructor
  · simp only [isSpace, Bool.or_eq_false_iff, decide_eq_false_iff_not]
    omega
  · omega

theorem Spells.word {w : W} (hw : WordText classify text w) :
    Spells classify (text w) [.word w] := by
  intro out
  obtain ⟨hne, hall, hread⟩ := hw
  obtain ⟨c, cs, hcs⟩ := List.exists_cons_of_ne_nil hne
  have hc := hall c (by simp [hcs])
  have hstart : lexStep classify ⟨out, .between⟩ c = some ⟨out, .word [c]⟩ := by
    simp [lexStep, lexBetween, isWordCode_ne hc, hc]
  refine ⟨⟨out, .word (text w)⟩, ?_, by simp [settle, hread]⟩
  rw [hcs, lexRun_cons, hstart, Option.bind_some,
    lexRun_word out [c] cs fun d hd => hall d (by simp [hcs, hd])]
  rfl

section Write
variable {S : Type} {string : S → List ℕ} {units : S → Units} {p : W → Bool} {q : S → Bool}
  (hp : ∀ w, p w = true → WordText classify text w)
  (hq : ∀ s, q s = true → StrText classify (string s) (units s))
include hp hq

/-- A written tree lexes to the tokens of the tree. -/
theorem Spells.write {t : Tree W S} (ht : t.allScalars p = true) (hs : t.allStrs q = true) :
    Spells classify (write text string t) (tokens (t.mapStrs units)) := by
  induction t using Tree.ind with
  | scalar w => exact Spells.word (hp w ht)
  | str s =>
      have hstr := Spells.nil.str_cons (hq s hs)
      rwa [List.append_nil] at hstr
  | arr items ih =>
      rw [Tree.allScalars_arr, List.all_eq_true] at ht
      rw [Tree.allStrs_arr, List.all_eq_true] at hs
      rw [write_arr, Tree.mapStrs_arr, tokens_arr, List.map_map, List.cons_append, List.cons_append]
      refine Spells.punct_cons rfl (Spells.append_punct (Spells.commaSep ?_) rfl Spells.nil)
      exact fun t hmem => ih t hmem (ht t hmem) (hs t hmem)
  | obj members ih =>
      rw [Tree.allScalars_obj, List.all_eq_true] at ht
      rw [Tree.allStrs_obj, List.all_eq_true] at hs
      rw [write_obj, Tree.mapStrs_obj, tokens_obj, List.map_map, List.cons_append, List.cons_append]
      refine Spells.punct_cons rfl (Spells.append_punct (Spells.commaSep ?_) rfl Spells.nil)
      intro m hmem
      obtain ⟨hkey, hvalue⟩ := Bool.and_eq_true_iff.mp (hs m hmem)
      exact ((ih m hmem (ht m hmem) hvalue).punct_cons rfl).str_cons (hq m.1 hkey)

end Write

/-! ### Tokens to tree -/

/-- Where a value is due, the tokens of a tree deliver it. -/
def Delivers (t : Tree W Units) : Prop :=
  ∀ stack, ∃ tok rest, Json.tokens t = tok :: rest ∧ tok ≠ .rbrack ∧
    ((startValue stack tok).bind fun st => parseRun st rest) = some (deliver t stack)

theorem Delivers.value {t : Tree W Units} (h : Delivers t) (stack : List (Frame W)) :
    parseRun (.value stack) (Json.tokens t) = some (deliver t stack) := by
  obtain ⟨tok, rest, htok, -, hrun⟩ := h stack
  rw [htok, parseRun_cons]
  exact hrun

theorem Delivers.arrayStart {t : Tree W Units} (h : Delivers t) (stack : List (Frame W)) :
    parseRun (.arrayStart stack) (Json.tokens t) = some (deliver t (.items [] :: stack)) := by
  obtain ⟨tok, rest, htok, hne, hrun⟩ := h (.items [] :: stack)
  rw [htok, parseRun_cons]
  cases tok <;> first | exact hrun | exact absurd rfl hne

theorem parseRun_items (read items : List (Tree W Units)) (stack : List (Frame W))
    (h : ∀ t ∈ items, Delivers t) :
    parseRun (.arrayNext read stack)
      ((items.map fun t => .comma :: Json.tokens t).flatten) =
        some (.arrayNext (read ++ items) stack) := by
  induction items generalizing read with
  | nil => simp
  | cons t items ih =>
      have hstep : parseStep (.arrayNext read stack) (.comma : Token W) =
          some (.value (.items read :: stack)) := rfl
      rw [List.map_cons, List.flatten_cons, List.cons_append, parseRun_cons, hstep,
        Option.bind_some, parseRun_append, (h t List.mem_cons_self).value]
      simpa [deliver] using ih (read ++ [t]) fun u hu => h u (List.mem_cons_of_mem t hu)

theorem parseRun_members (read members : List (Units × Tree W Units)) (stack : List (Frame W))
    (h : ∀ m ∈ members, Delivers m.2) :
    parseRun (.objectNext read stack)
      ((members.map fun m => .comma :: .str m.1 :: .colon :: Json.tokens m.2).flatten) =
        some (.objectNext (read ++ members) stack) := by
  induction members generalizing read with
  | nil => simp
  | cons m members ih =>
      have hstep : ∀ rest, parseRun (.objectNext read stack)
          (.comma :: .str m.1 :: .colon :: rest : List (Token W)) =
            parseRun (.value (.members read m.1 :: stack)) rest := fun _ => rfl
      rw [List.map_cons, List.flatten_cons]
      simp only [List.cons_append]
      rw [hstep, parseRun_append, (h m List.mem_cons_self).value]
      simpa [deliver] using ih (read ++ [m]) fun u hu => h u (List.mem_cons_of_mem m hu)

theorem commaSep_cons (g : List (Token W)) (gs : List (List (Token W))) :
    Json.commaSep (g :: gs) = g ++ (gs.map fun g' => .comma :: g').flatten := by
  induction gs generalizing g with
  | nil => simp [Json.commaSep]
  | cons g' gs ih => rw [Json.commaSep, ih, List.map_cons, List.flatten_cons, List.cons_append]; simp

theorem delivers (t : Tree W Units) : Delivers t := by
  induction t using Tree.ind with
  | scalar w => exact fun stack => ⟨.word w, [], rfl, by simp, rfl⟩
  | str s => exact fun stack => ⟨.str s, [], rfl, by simp, rfl⟩
  | arr items ih =>
      intro stack
      refine ⟨.lbrack, _, by rw [tokens_arr, List.cons_append], by simp, ?_⟩
      rw [startValue, Option.bind_some, parseRun_append]
      cases items with
      | nil => rfl
      | cons t items =>
          rw [List.map_cons, commaSep_cons, parseRun_append,
            (ih t List.mem_cons_self).arrayStart, Option.bind_some, deliver, List.map_map]
          have hrun := parseRun_items [t] items stack fun u hu => ih u (List.mem_cons_of_mem t hu)
          simp only [Function.comp_def, List.nil_append] at hrun ⊢
          rw [hrun]
          rfl
  | obj members ih =>
      intro stack
      refine ⟨.lbrace, _, by rw [tokens_obj, List.cons_append], by simp, ?_⟩
      rw [startValue, Option.bind_some, parseRun_append]
      cases members with
      | nil => rfl
      | cons m members =>
          have hfirst : ∀ rest, parseRun (.objectStart stack)
              (.str m.1 :: .colon :: rest : List (Token W)) =
                parseRun (.value (.members [] m.1 :: stack)) rest := fun _ => rfl
          rw [List.map_cons, commaSep_cons]
          simp only [List.cons_append]
          rw [hfirst, parseRun_append, (ih m List.mem_cons_self).value, Option.bind_some, deliver,
            List.map_map]
          have hrun := parseRun_members [m] members stack
            fun u hu => ih u (List.mem_cons_of_mem m hu)
          simp only [Function.comp_def, List.nil_append] at hrun ⊢
          rw [hrun]
          rfl

/-- The tokens of a tree parse to the tree. -/
theorem parseTokens_tokens (t : Tree W Units) : parseTokens (Json.tokens t) = some t := by
  rw [parseTokens, (delivers t).value]
  rfl

/-- **What is written is read back**, each string as the units it lexes to. -/
theorem parse_write {S : Type} {string : S → List ℕ} {units : S → Units} {p : W → Bool}
    {q : S → Bool} (hp : ∀ w, p w = true → WordText classify text w)
    (hq : ∀ s, q s = true → StrText classify (string s) (units s)) {t : Tree W S}
    (ht : t.allScalars p = true) (hs : t.allStrs q = true) :
    parse classify (write text string t) = some (t.mapStrs units) := by
  obtain ⟨st, hrun, hset⟩ := Spells.write hp hq ht hs []
  rw [parse, lex, hrun, Option.bind_some, hset, List.nil_append, Option.bind_some,
    parseTokens_tokens]

/-- **What `render` writes, `parse` reads back.** -/
theorem parse_render (t : Tree W Units) (p : W → Bool)
    (hp : ∀ w, p w = true → WordText classify text w) (ht : t.allScalars p = true) :
    parse classify (render text t) = some t := by
  have hq : ∀ s : Units, true = true → StrText classify (34 :: s.flatMap escapeUnit ++ [34]) (id s) :=
    fun s _ out => lexRun_strText classify text out s
  rw [render_eq_write, parse_write hp hq ht (Tree.allStrs_of_forall (fun _ => rfl) t),
    Tree.mapStrs_id]

/-! ### Printable texts -/

/-- A printable ASCII character. -/
def isPrintable (c : ℕ) : Bool := 32 ≤ c && c < 127

theorem printable_hexDigit : ∀ d < 16, isPrintable (hexDigit d) = true := by decide

theorem printable_escapeUnit (u : UInt16) : ∀ c ∈ escapeUnit u, isPrintable c = true := by
  have hd : ∀ n, isPrintable (hexDigit (n % 16)) = true := fun n =>
    printable_hexDigit _ (Nat.mod_lt n (by decide))
  have hb : isPrintable 92 = true := rfl
  simp only [escapeUnit, hexEscape]
  split_ifs <;>
    simp only [List.mem_cons, List.not_mem_nil, or_false, forall_eq_or_imp, forall_eq]
  all_goals
    first
      | exact ⟨hb, rfl, hd _, hd _, hd _, hd _⟩
      | exact ⟨hb, rfl⟩
      | (simp only [isPrintable, Bool.and_eq_true, decide_eq_true_eq]; omega)

theorem printable_of_isWordCode {c : ℕ} (h : isWordCode c = true) : isPrintable c = true := by
  simp only [isWordCode, Bool.or_eq_true, Bool.and_eq_true, decide_eq_true_eq] at h
  simp only [isPrintable, Bool.and_eq_true, decide_eq_true_eq]
  omega

theorem mem_intercalate_comma {cs : List (List ℕ)} {c : ℕ} (h : c ∈ [44].intercalate cs) :
    c = 44 ∨ ∃ l ∈ cs, c ∈ l := by
  induction cs with
  | nil => simp at h
  | cons l cs ih =>
      cases cs with
      | nil => exact Or.inr ⟨l, List.mem_cons_self, by simpa using h⟩
      | cons l' cs =>
          rw [List.intercalate_cons_cons, List.mem_append, List.mem_append] at h
          rcases h with (hl | hc) | hrest
          · exact Or.inr ⟨l, List.mem_cons_self, hl⟩
          · exact Or.inl (List.mem_singleton.mp hc)
          · refine (ih hrest).imp_right ?_
            rintro ⟨x, hx, hcx⟩
            exact ⟨x, List.mem_cons_of_mem l hx, hcx⟩

/-- What holds of the texts of scalars and strings, and of ASCII, holds of a written tree. -/
theorem forall_write {S : Type} {string : S → List ℕ} {p : W → Bool} {q : S → Bool} {P : ℕ → Prop}
    (hascii : ∀ c, isPrintable c = true → P c) (hp : ∀ w, p w = true → ∀ c ∈ text w, P c)
    (hq : ∀ s, q s = true → ∀ c ∈ string s, P c) {t : Tree W S} (ht : t.allScalars p = true)
    (hs : t.allStrs q = true) : ∀ c ∈ write text string t, P c := by
  induction t using Tree.ind with
  | scalar w => exact hp w ht
  | str s => exact hq s hs
  | arr items ih =>
      rw [Tree.allScalars_arr, List.all_eq_true] at ht
      rw [Tree.allStrs_arr, List.all_eq_true] at hs
      intro c hc
      rw [write_arr, List.cons_append, List.mem_cons, List.mem_append, List.mem_singleton] at hc
      rcases hc with rfl | hc | rfl
      · exact hascii _ rfl
      · rcases mem_intercalate_comma hc with rfl | ⟨l, hl, hcl⟩
        · exact hascii _ rfl
        · obtain ⟨t, hmem, rfl⟩ := List.mem_map.mp hl
          exact ih t hmem (ht t hmem) (hs t hmem) c hcl
      · exact hascii _ rfl
  | obj members ih =>
      rw [Tree.allScalars_obj, List.all_eq_true] at ht
      rw [Tree.allStrs_obj, List.all_eq_true] at hs
      intro c hc
      rw [write_obj, List.cons_append, List.mem_cons, List.mem_append, List.mem_singleton] at hc
      rcases hc with rfl | hc | rfl
      · exact hascii _ rfl
      · rcases mem_intercalate_comma hc with rfl | ⟨l, hl, hcl⟩
        · exact hascii _ rfl
        · obtain ⟨m, hmem, rfl⟩ := List.mem_map.mp hl
          obtain ⟨hkey, hvalue⟩ := Bool.and_eq_true_iff.mp (hs m hmem)
          rw [List.mem_append, List.mem_cons] at hcl
          rcases hcl with hcl | rfl | hcl
          · exact hq m.1 hkey c hcl
          · exact hascii _ rfl
          · exact ih m hmem (ht m hmem) hvalue c hcl
      · exact hascii _ rfl

/-- **A written tree is printable ASCII.** -/
theorem printable_render {t : Tree W Units} {p : W → Bool}
    (hp : ∀ w, p w = true → WordText classify text w) (ht : t.allScalars p = true) :
    ∀ c ∈ render text t, isPrintable c = true := by
  have hstr : ∀ s : Units, true = true → ∀ c ∈ 34 :: s.flatMap escapeUnit ++ [34],
      isPrintable c = true := by
    intro s _ c hc
    rw [List.cons_append, List.mem_cons, List.mem_append, List.mem_flatMap,
      List.mem_singleton] at hc
    rcases hc with rfl | ⟨u, -, hc⟩ | rfl
    · rfl
    · exact printable_escapeUnit u c hc
    · rfl
  rw [render_eq_write]
  exact forall_write (fun c hc => hc)
    (fun w hw c hc => printable_of_isWordCode ((hp w hw).2.1 c hc)) hstr ht
    (Tree.allStrs_of_forall (fun _ => rfl) t)

end ReadBack
end SwarmAuth.Json
