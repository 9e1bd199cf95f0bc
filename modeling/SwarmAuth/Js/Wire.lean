import SwarmAuth.Js.Replace

/-!
# The canonical text of claims

Both SDKs sign the text of one object: the claims by the order of their keys, delegation
claims and a shared budget only where they are set. Both rewrite a part of that text, found
by its key.

## Main definitions

* `WireClaims`, `WireClaims.members` — the values of the object, and its members in order.
* `WireClaims.text` — its text, around the text of the constraints and of the amount.
* `render_members` — that is its text.
* `scan_front`, `scan_pinFront` — what stands before the two keys that are looked for.
-/
namespace SwarmAuth.Js

open Substitution

/-- The values of the claims' object. -/
structure WireClaims where
  capabilities : List Units
  allowedParams : Value
  maxAmountUsd : Value
  maxCalls : Value
  rateLimitPerMin : Value
  sharedBudget : Option Units
  dlg : Option Units
  exp : Value
  iat : Value
  iss : Units
  jti : Units
  prf : Option Units
  sub : Units

namespace WireClaims
variable (c : WireClaims)

/-- A member that is there when it is set. -/
def optional (key : Units) (s : Option Units) : Object := s.elim [] fun s => [(key, .str s)]

/-- The constraints, by the order of their keys. -/
def constraints : Object :=
  [(lit "allowed_params", c.allowedParams), (lit "max_amount_usd", c.maxAmountUsd),
    (lit "max_calls", c.maxCalls), (lit "rate_limit_per_min", c.rateLimitPerMin)] ++
    optional (lit "shared_budget") c.sharedBudget

/-- The claims, by the order of their keys. -/
def members : Object :=
  [(lit "capabilities", .arr (c.capabilities.map .str)), (lit "constraints", .obj c.constraints)] ++
    optional (lit "dlg") c.dlg ++
    [(lit "exp", c.exp), (lit "iat", c.iat), (lit "iss", .str c.iss), (lit "jti", .str c.jti)] ++
    optional (lit "prf") c.prf ++ [(lit "sub", .str c.sub)]

/-- The claims with this value for their constraints. -/
def membersWith (constraints : Value) : Object :=
  [(lit "capabilities", .arr (c.capabilities.map .str)), (lit "constraints", constraints)] ++
    optional (lit "dlg") c.dlg ++
    [(lit "exp", c.exp), (lit "iat", c.iat), (lit "iss", .str c.iss), (lit "jti", .str c.jti)] ++
    optional (lit "prf") c.prf ++ [(lit "sub", .str c.sub)]

/-- A value's text. -/
def valueText (v : Value) : List ℕ := Json.render scalarText v

/-- A key with its colon. -/
def keyText (key : Units) : List ℕ := quoted key ++ [58]

/-- The text of an optional member, with its comma. -/
def optionalText (key : Units) (s : Option Units) : List ℕ :=
  s.elim [] fun s => [44] ++ keyText key ++ quoted s

/-- The text of an array of strings. -/
def stringsText (ss : List Units) : List ℕ := 91 :: [44].intercalate (ss.map quoted) ++ [93]

/-- What stands before the constraints. -/
def front : List ℕ := [123] ++ keyText (lit "capabilities") ++ stringsText c.capabilities

/-- What stands before the amount within the constraints. -/
def pinFront : List ℕ := [123] ++ keyText (lit "allowed_params") ++ valueText c.allowedParams

/-- What stands after the amount within the constraints. -/
def pinBack : List ℕ :=
  [44] ++ keyText (lit "max_calls") ++ valueText c.maxCalls ++ [44] ++
    keyText (lit "rate_limit_per_min") ++ valueText c.rateLimitPerMin ++
    optionalText (lit "shared_budget") c.sharedBudget ++ [125]

/-- What stands after the constraints. -/
def back : List ℕ :=
  optionalText (lit "dlg") c.dlg ++ [44] ++ keyText (lit "exp") ++ valueText c.exp ++ [44] ++
    keyText (lit "iat") ++ valueText c.iat ++ [44] ++ keyText (lit "iss") ++ quoted c.iss ++ [44] ++
    keyText (lit "jti") ++ quoted c.jti ++ optionalText (lit "prf") c.prf ++ [44] ++
    keyText (lit "sub") ++ quoted c.sub ++ [125]

/-- The text of the constraints with this text of the amount. -/
def constraintsText (amount : List ℕ) : List ℕ :=
  c.pinFront ++ [44] ++ (keyText (lit "max_amount_usd") ++ amount) ++ c.pinBack

/-- The text of the claims with this text of the constraints. -/
def text (constraints : List ℕ) : List ℕ :=
  c.front ++ [44] ++ (keyText (lit "constraints") ++ constraints) ++ c.back

theorem render_obj_members (ms : Object) :
    valueText (.obj ms) =
      123 :: [44].intercalate (ms.map fun m => keyText m.1 ++ valueText m.2) ++ [125] := by
  rw [valueText, Json.render_obj]
  congr! 4 with m
  simp [keyText, quoted, valueText]

theorem valueText_str (s : Units) : valueText (.str s) = quoted s := Json.render_str ..

theorem valueText_strings (ss : List Units) : valueText (.arr (ss.map .str)) = stringsText ss := by
  rw [valueText, Json.render_arr, List.map_map, stringsText]
  congr! 3
  exact List.map_congr_left fun s _ => Json.render_str ..

/-- The text of the constraints. -/
theorem render_constraints :
    valueText (.obj c.constraints) = c.constraintsText (valueText c.maxAmountUsd) := by
  rw [render_obj_members]
  cases hb : c.sharedBudget <;>
    simp [constraints, optional, constraintsText, pinFront, pinBack, optionalText, hb,
      List.intercalate_cons_cons, valueText_str]

theorem render_membersWith (constraints : Value) :
    valueText (.obj (c.membersWith constraints)) = c.text (valueText constraints) := by
  rw [render_obj_members]
  cases hd : c.dlg <;> cases hp : c.prf <;>
    simp [membersWith, optional, text, front, back, optionalText, hd, hp, List.intercalate_cons_cons,
      valueText_str, valueText_strings]

/-- **The text of the claims.** -/
theorem render_members :
    valueText (.obj c.members) = c.text (c.constraintsText (valueText c.maxAmountUsd)) := by
  rw [← c.render_constraints, ← c.render_membersWith]
  rfl

/-- Sorting looks at keys only: values are told by their positions. -/
theorem sortMembers_positions {p q : List (Units × ℕ)}
    (h : Json.Tree.sortMembers codePoints p = q) (values : List Value) :
    Json.Tree.sortMembers codePoints (p.map fun m => (m.1, values.getD m.2 .null)) =
      q.map fun m => (m.1, values.getD m.2 .null) := by
  rw [← h]
  exact Json.Tree.sortMembers_map (fun i => values.getD i .null) p

/-! ## What stands before the two keys -/

theorem scan_front {a b : ℕ} (ha : a ∉ [34, 44, 91, 92, 93]) (hb : b ∉ [34, 92])
    (hkey : scan a b 34 58 .none ([123] ++ keyText (lit "capabilities")) = some .none)
    (text : List ℕ) : scan a b 34 58 .none (c.front ++ text) = scan a b 34 58 .none text := by
  rw [front, List.append_assoc, scan_append, hkey, Option.bind_some, stringsText, List.append_assoc,
    List.singleton_append, scan_strings ha hb]

/-- The key of the constraints does not occur before them. -/
theorem constraintsKey_not_infix : ¬ keyText (lit "constraints") <:+: c.front ++ [44] := by
  intro h
  have hscan := scan_front c (a := 116) (b := 115) (by decide) (by decide) (by decide) [44]
  have hword : [116, 115, 34, 58] <:+: keyText (lit "constraints") := by decide
  exact not_infix_of_scan (by decide) (by decide) (by decide) hscan (hword.trans h)

/-- Without pins the key of the amount does not occur before the amount. -/
theorem amountKey_not_infix (hpins : c.allowedParams = .obj []) :
    ¬ keyText (lit "max_amount_usd") <:+:
      c.front ++ [44] ++ keyText (lit "constraints") ++ c.pinFront ++ [44] := by
  intro h
  have hscan := scan_front c (a := 115) (b := 100) (by decide) (by decide) (by decide)
    ([44] ++ keyText (lit "constraints") ++ c.pinFront ++ [44])
  have hrest : scan 115 100 34 58 .none
      ([44] ++ keyText (lit "constraints") ++ c.pinFront ++ [44]) = some .none := by
    rw [pinFront, hpins, valueText, Json.render_obj]
    decide
  have hword : [115, 100, 34, 58] <:+: keyText (lit "max_amount_usd") := by decide
  rw [hrest, ← List.append_assoc, ← List.append_assoc, ← List.append_assoc] at hscan
  exact not_infix_of_scan (by decide) (by decide) (by decide) hscan (hword.trans h)

/-- **The constraints are rewritten where they stand.** -/
theorem replace_constraints (old replacement : List ℕ) :
    replace (c.text old) (keyText (lit "constraints") ++ old) replacement =
      c.front ++ [44] ++ expand (keyText (lit "constraints") ++ old) (c.front ++ [44]) c.back
        replacement ++ c.back := by
  rw [text]
  exact replace_append (by simp [keyText]) (List.prefix_append _ _) (by decide)
    c.constraintsKey_not_infix

/-- **Without pins the amount is rewritten where it stands.** -/
theorem replace_amount (hpins : c.allowedParams = .obj []) (old : List ℕ) {new : List ℕ}
    (hnew : 36 ∉ new) :
    replace (c.text (c.constraintsText old)) (keyText (lit "max_amount_usd") ++ old)
        (keyText (lit "max_amount_usd") ++ new) = c.text (c.constraintsText new) := by
  have hdollar : 36 ∉ keyText (lit "max_amount_usd") ++ new := by
    rw [List.mem_append, not_or]
    exact ⟨by decide, hnew⟩
  have hreplace := replace_append (p := keyText (lit "max_amount_usd") ++ old)
    (r := keyText (lit "max_amount_usd") ++ new) (t := c.pinBack ++ c.back) (by simp [keyText])
    (List.prefix_append _ _) (by decide) (c.amountKey_not_infix hpins)
  rw [expand_of_not_mem hdollar] at hreplace
  simpa [text, constraintsText] using hreplace

end WireClaims
end SwarmAuth.Js
