import SwarmAuth.Lib.PrefixCode

/-!
# Wildcard patterns

A pattern over strings of letters names itself, and when it ends in a separator and a
star it also names every string that extends what stands before the star. Naming
composes: a pattern named by another names only what the other names.

## Main definitions

* `covers`, `coveredBy` — one pattern, a list of patterns.
* `coveredBy_trans` — narrowing a list of patterns narrows what it covers.
* `coveredBy_flatMap` — a prefix code keeps what patterns name.
-/
namespace SwarmAuth.Wildcard
variable {α : Type} [DecidableEq α] (sep star : α)

/-- The pattern names the string. -/
def covers (item s : List α) : Bool :=
  s = item || ([sep, star].isSuffixOf item && item.dropLast.isPrefixOf s)

/-- Some pattern names the string. -/
def coveredBy (s : List α) (items : List (List α)) : Bool := items.any fun item => covers sep star item s

variable {sep star}

theorem covers_iff {item s : List α} : covers sep star item s = true ↔
    s = item ∨ [sep, star] <:+ item ∧ item.dropLast <+: s := by
  simp [covers]

omit [DecidableEq α] in
/-- What stands before the star of a pattern ends in the separator. -/
theorem dropLast_of_suffix {item : List α} (h : [sep, star] <:+ item) :
    ∃ stem, item = stem ++ [sep, star] ∧ item.dropLast = stem ++ [sep] := by
  obtain ⟨stem, rfl⟩ := h
  refine ⟨stem, rfl, ?_⟩
  rw [show stem ++ [sep, star] = (stem ++ [sep]) ++ [star] by simp, List.dropLast_concat]

/-- A pattern named by another names only what the other names. -/
theorem covers_trans {item c s : List α} (hne : sep ≠ star) (hc : covers sep star item c = true)
    (hs : covers sep star c s = true) : covers sep star item s = true := by
  rw [covers_iff] at *
  rcases hc with rfl | ⟨hitem, hprefix⟩
  · exact hs
  · refine Or.inr ⟨hitem, ?_⟩
    rcases hs with rfl | ⟨hstar, hs⟩
    · exact hprefix
    · -- the stem of `item` stops before the star of `c`
      obtain ⟨stem, -, hstem⟩ := dropLast_of_suffix hitem
      obtain ⟨stem', hc, hstem'⟩ := dropLast_of_suffix hstar
      refine List.IsPrefix.trans ?_ hs
      have hconcat : c = c.dropLast ++ [star] := by rw [hstem', hc]; simp
      rw [hconcat, List.prefix_concat_iff] at hprefix
      rcases hprefix with heq | hpre
      · rw [hstem] at heq
        have hlast := (List.append_inj' heq rfl).2
        simp only [List.cons.injEq, and_true] at hlast
        exact absurd hlast hne
      · exact hpre

theorem coveredBy_iff {s : List α} {items : List (List α)} :
    coveredBy sep star s items = true ↔ ∃ item ∈ items, covers sep star item s = true := by
  simp [coveredBy]

/-- **Narrowing composes**: when every pattern of a list is covered by another list, so is
whatever the first list covers. -/
theorem coveredBy_trans {narrow wide : List (List α)} {s : List α} (hne : sep ≠ star)
    (h : ∀ c ∈ narrow, coveredBy sep star c wide = true)
    (hs : coveredBy sep star s narrow = true) : coveredBy sep star s wide = true := by
  rw [coveredBy_iff] at hs ⊢
  obtain ⟨c, hc, hcs⟩ := hs
  obtain ⟨item, hitem, hcover⟩ := coveredBy_iff.mp (h c hc)
  exact ⟨item, hitem, covers_trans hne hcover hcs⟩

/-! ## Coded patterns -/

section Code
variable {β : Type} [DecidableEq β] {f : α → List β} {p : α → Prop} {sep' star' : β}

omit [DecidableEq α] [DecidableEq β] in
/-- A coded text ends in the signs of separator and star when the text ends in these. -/
theorem suffix_flatMap (h : PrefixCode f p) (hsep : Mark f p sep sep') (hstar : Mark f p star star')
    {item : List α} (hi : ∀ a ∈ item, p a) :
    [sep', star'] <:+ item.flatMap f ↔ [sep, star] <:+ item := by
  constructor
  · rintro ⟨stem, hstem⟩
    have htail : item.flatMap f = (stem ++ [sep']) ++ [star'] := by rw [← hstem]; simp
    obtain ⟨init, hinit, hinitf⟩ := hstar.concat hi h.ne_nil htail
    have hi' : ∀ a ∈ init, p a := fun a ha => hi a (by rw [hinit]; exact List.mem_append_left _ ha)
    obtain ⟨first, hfirst, -⟩ := hsep.concat hi' h.ne_nil hinitf
    exact ⟨first, by rw [hinit, hfirst]; simp⟩
  · rintro ⟨stem, rfl⟩
    refine ⟨stem.flatMap f, ?_⟩
    simp [List.flatMap_append, hsep.code, hstar.code]

/-- A coded pattern names the codes of what the pattern names. -/
theorem covers_flatMap (h : PrefixCode f p) (hsep : Mark f p sep sep') (hstar : Mark f p star star')
    {item s : List α} (hi : ∀ a ∈ item, p a) (hs : ∀ a ∈ s, p a) :
    covers sep' star' (item.flatMap f) (s.flatMap f) = covers sep star item s := by
  rw [Bool.eq_iff_iff, covers_iff, covers_iff, h.flatMap_inj hs hi,
    suffix_flatMap h hsep hstar hi]
  refine or_congr_right (and_congr_right fun hsuf => ?_)
  obtain ⟨stem, hitem, hdrop⟩ := dropLast_of_suffix hsuf
  have hcode : (item.flatMap f).dropLast = (stem ++ [sep]).flatMap f := by
    have heq : item.flatMap f = (stem ++ [sep]).flatMap f ++ [star'] := by
      rw [hitem]
      simp [List.flatMap_append, hstar.code]
    rw [heq, List.dropLast_concat]
  rw [hcode, hdrop]
  refine h.prefix_iff (fun a ha => hi a ?_) hs
  rw [hitem, List.mem_append]
  rw [List.mem_append] at ha
  exact ha.imp_right fun hm => by rw [List.mem_singleton.mp hm]; exact List.mem_cons_self

/-- **A prefix code keeps what patterns name.** -/
theorem coveredBy_flatMap (h : PrefixCode f p) (hsep : Mark f p sep sep')
    (hstar : Mark f p star star') {s : List α} {items : List (List α)}
    (hi : ∀ item ∈ items, ∀ a ∈ item, p a) (hs : ∀ a ∈ s, p a) :
    coveredBy sep' star' (s.flatMap f) (items.map fun item => item.flatMap f) =
      coveredBy sep star s items := by
  rw [coveredBy, coveredBy, List.any_map, Bool.eq_iff_iff, List.any_eq_true, List.any_eq_true]
  refine exists_congr fun item => and_congr_right fun hmem => ?_
  rw [Function.comp_apply, covers_flatMap h hsep hstar (hi item hmem) hs]

end Code

end SwarmAuth.Wildcard
