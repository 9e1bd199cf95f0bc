import SwarmAuth.Python.Attenuation
import SwarmAuth.Lib.JsonEquality

/-!
# The arguments of a guarded call

`guard` binds a call to the signature of the function it decorates, makes one mapping of the
bound arguments and checks the pins of the token on that. Arguments are any objects: `equal`
is `json_value_equal` of one with a pinned value.

## Main definitions

* `Signature`, `Signature.bind` — signatures, and how a call binds to one.
* `Receives` — what the function's body receives under a name.
* `boundCallParams`, `checkPins`, `amountArgument` — what the guard looks at.
* `pins_bind_iff` — pins hold of what is received, but where a name is taken twice.
-/
namespace SwarmAuth.Python

variable {α : Type}

/-! ## Signatures -/

/-- A parameter that takes one value. -/
structure Parameter (α : Type) where
  name : Units
  default : Option α := none

/-- The parameters of a function, by kind. -/
structure SignatureFields (α : Type) where
  positionalOnly : List (Parameter α) := []
  positionalOrKeyword : List (Parameter α) := []
  varPositional : Option Units := none
  keywordOnly : List (Parameter α) := []
  varKeyword : Option Units := none

/-- Those that positional arguments fill. -/
def SignatureFields.positional (sig : SignatureFields α) : List (Parameter α) :=
  sig.positionalOnly ++ sig.positionalOrKeyword

/-- Those that keywords fill. -/
def SignatureFields.byKeyword (sig : SignatureFields α) : List (Parameter α) :=
  sig.positionalOrKeyword ++ sig.keywordOnly

/-- The names of the parameters, in order. -/
def SignatureFields.names (sig : SignatureFields α) : List Units :=
  sig.positional.map (·.name) ++ sig.varPositional.toList ++ sig.keywordOnly.map (·.name) ++
    sig.varKeyword.toList

/-- `inspect.Signature`: no two parameters share a name, and none is without one. -/
structure Signature (α : Type) extends SignatureFields α where
  unique : toSignatureFields.names.Nodup
  named : [] ∉ toSignatureFields.names

/-- The keyword arguments of a call, a `dict`. -/
structure Keywords (α : Type) where
  entries : List (Units × α)
  unique : (entries.map Prod.fst).Nodup

/-! ## Binding -/

/-- What a call gives: values to parameters, what is left for `*args`, and for `**kwargs`. -/
structure BoundArguments (α : Type) where
  given : List (Units × α)
  surplus : List α
  extra : List (Units × α)

/-- `signature.bind(*args, **kwargs)`, none where it raises. A keyword that names a
positional-only parameter goes to `**kwargs`. -/
def Signature.bind (sig : Signature α) (args : List α) (kwargs : Keywords α) :
    Option (BoundArguments α) :=
  let names := sig.byKeyword.map (·.name)
  let filled := (sig.positional.map (·.name)).zip args
  let surplus := args.drop sig.positional.length
  let keyed := kwargs.entries.filter fun m => m.1 ∈ names
  let extra := kwargs.entries.filter fun m => m.1 ∉ names
  let given := filled ++ keyed
  if (surplus.isEmpty || sig.varPositional.isSome) && (extra.isEmpty || sig.varKeyword.isSome) &&
      keyed.all (fun m => m.1 ∉ filled.map Prod.fst) &&
      (sig.positional ++ sig.keywordOnly).all
        (fun p => (given.lookup p.name).isSome || p.default.isSome) then
    some ⟨given, surplus, extra⟩
  else none

/-- The values of parameters, with defaults applied. -/
def BoundArguments.values (b : BoundArguments α) (ps : List (Parameter α)) : List (Units × α) :=
  ps.filterMap fun p => ((b.given.lookup p.name).or p.default).map fun v => (p.name, v)

/-- What a parameter is bound to. -/
inductive Argument (α : Type) where
  | value (v : α)
  | tuple (vs : List α)
  | mapping (entries : List (Units × α))

/-- Values as arguments. -/
def valued (ms : List (Units × α)) : List (Units × Argument α) := ms.map fun m => (m.1, .value m.2)

/-- `bound.arguments` after `bound.apply_defaults()`. -/
def Signature.arguments (sig : Signature α) (b : BoundArguments α) : List (Units × Argument α) :=
  valued (b.values sig.positional) ++ (sig.varPositional.toList.map fun n => (n, .tuple b.surplus)) ++
    valued (b.values sig.keywordOnly) ++ (sig.varKeyword.toList.map fun n => (n, .mapping b.extra))

/-- The named parameters of the body, with their values. -/
def Signature.bound (sig : Signature α) (b : BoundArguments α) : List (Units × α) :=
  b.values (sig.positional ++ sig.keywordOnly)

/-- What the body receives under a name: as a named parameter, or as an entry of `**kwargs`. -/
def Receives (sig : Signature α) (b : BoundArguments α) (key : Units) (v : α) : Prop :=
  (key, v) ∈ sig.bound b ∨ (key, v) ∈ b.extra

/-! ## The guard -/

/-- The entries of a mapping. -/
def entriesOf : Option (Argument α) → List (Units × α)
  | some (.mapping entries) => entries
  | _ => []

/-- `_bound_call_params`. -/
def boundCallParams (sig : Signature α) (args : List α) (kwargs : Keywords α) :
    Option (List (Units × Argument α)) := do
  let b ← sig.bind args kwargs
  let params := sig.arguments b
  match sig.varKeyword with
  | none => some params
  | some name =>
      -- `params.update(params.pop(name, {}))`
      some ((valued (entriesOf (params.lookup name))).foldl Json.Tree.upsert
        (params.filter fun m => m.1 ≠ name))

/-- `json_value_equal` of an argument: a tuple is no JSON value. -/
def equalArgument (equal : α → Value → Bool) : Argument α → Value → Bool
  | .value v, expected => equal v expected
  | .tuple _, _ => false
  | .mapping _, _ => false

/-- `check_params` passes. -/
def checkPins (equal : α → Value → Bool) (pins : Dict) (params : List (Units × Argument α)) : Bool :=
  pins.all fun m =>
    match params.lookup m.1 with
    | some a => equalArgument equal a m.2
    | none => false

/-- `params.get(amount_kwarg) if amount_kwarg else None`. -/
def amountArgument (amountKwarg : Option Units) (params : List (Units × Argument α)) :
    Option (Argument α) :=
  (amountKwarg.filter (· ≠ [])).bind fun name => params.lookup name

theorem lookup_valued (ms : List (Units × α)) (key : Units) :
    (valued ms).lookup key = (ms.lookup key).map .value := by
  induction ms with
  | nil => rfl
  | cons m ms ih =>
      rw [valued, List.map_cons, Json.Tree.lookup_cons_if, Json.Tree.lookup_cons_if]
      by_cases hk : key = m.1
      · rw [if_pos hk, if_pos hk, Option.map_some]
      · rw [if_neg hk, if_neg hk]
        exact ih

/-- On JSON arguments that is `checkParams`. -/
theorem checkPins_valued {claims : CapabilityClaims} {params : Dict} :
    checkPins jsonValueEqual claims.constraints.allowedParams (valued params) = true ↔
      checkParams claims params = .ok () := by
  rw [checkPins, List.all_eq_true, checkParams_ok]
  refine forall₂_congr fun m _ => ?_
  rw [lookup_valued, pins_iff, Dict.get?]
  cases params.lookup m.1 <;> simp [equalArgument]

/-! ## What a binding gives -/

section Binding
variable {sig : Signature α} {args : List α} {kwargs : Keywords α} {b : BoundArguments α}

/-- What binds to `**kwargs` has names that no keyword parameter has. -/
theorem extra_of_bind (hb : sig.bind args kwargs = some b) :
    (b.extra.map Prod.fst).Nodup ∧ (∀ key ∈ b.extra.map Prod.fst, key ∉ sig.byKeyword.map (·.name)) ∧
      (b.extra ≠ [] → sig.varKeyword.isSome = true) := by
  simp only [Signature.bind] at hb
  split_ifs at hb with h
  obtain rfl := Option.some.inj hb
  simp only [Bool.and_eq_true, Bool.or_eq_true, List.isEmpty_iff] at h
  refine ⟨?_, ?_, fun hne => h.1.1.2.resolve_left hne⟩
  · exact kwargs.unique.sublist (List.filter_sublist.map _)
  · intro key hkey
    obtain ⟨m, hm, rfl⟩ := List.mem_map.mp hkey
    simpa using (List.mem_filter.mp hm).2

theorem map_fst_valued (ms : List (Units × α)) : (valued ms).map Prod.fst = ms.map Prod.fst := by
  rw [valued, List.map_map]
  rfl

theorem keys_values (ps : List (Parameter α)) :
    ((b.values ps).map Prod.fst).Sublist (ps.map (·.name)) := by
  induction ps with
  | nil => exact List.Sublist.refl _
  | cons p ps ih =>
      rw [BoundArguments.values, List.filterMap_cons]
      cases (b.given.lookup p.name).or p.default with
      | none => exact ih.cons _
      | some v => exact ih.cons_cons _

theorem mem_values_name {ps : List (Parameter α)} {key : Units} {v : α} (h : (key, v) ∈ b.values ps) :
    key ∈ ps.map (·.name) := (keys_values ps).subset (List.mem_map_of_mem h)

/-- The arguments but `**kwargs`. -/
def Signature.ownArguments (sig : Signature α) (b : BoundArguments α) : List (Units × Argument α) :=
  valued (b.values sig.positional) ++ (sig.varPositional.toList.map fun n => (n, .tuple b.surplus)) ++
    valued (b.values sig.keywordOnly)

theorem keys_arguments (sig : Signature α) (b : BoundArguments α) :
    ((sig.arguments b).map Prod.fst).Nodup := by
  refine sig.unique.sublist ?_
  rw [Signature.arguments, List.map_append, List.map_append, List.map_append, map_fst_valued,
    map_fst_valued, List.map_map, List.map_map]
  refine (((keys_values _).append ?_).append (keys_values _)).append ?_
  · exact (List.map_id _).symm ▸ List.Sublist.refl _
  · exact (List.map_id _).symm ▸ List.Sublist.refl _

theorem mem_ownArguments {key : Units} {v : α} (h : (key, v) ∈ sig.bound b) :
    (key, .value v) ∈ sig.ownArguments b := by
  rw [Signature.bound, BoundArguments.values, List.filterMap_append, List.mem_append] at h
  rw [Signature.ownArguments, List.mem_append, List.mem_append]
  rcases h with h | h
  · exact Or.inl (Or.inl (List.mem_map.mpr ⟨_, h, rfl⟩))
  · exact Or.inr (List.mem_map.mpr ⟨_, h, rfl⟩)

/-- A named parameter's value is its argument. -/
theorem lookup_ownArguments {key : Units} {v : α} (h : (key, v) ∈ sig.bound b) :
    (sig.ownArguments b).lookup key = some (.value v) := by
  have hkeys : ((sig.ownArguments b).map Prod.fst).Nodup := by
    have hall := keys_arguments sig b
    rw [Signature.arguments, List.map_append] at hall
    exact (List.nodup_append.mp hall).1
  exact (Json.Tree.lookup_eq_some_iff hkeys).mpr (mem_ownArguments h)

/-- **What the guard sees**: the entries of `**kwargs` before the parameters. -/
theorem lookup_boundCallParams {params : List (Units × Argument α)} (hb : sig.bind args kwargs = some b)
    (hp : boundCallParams sig args kwargs = some params) (key : Units) :
    params.lookup key = ((b.extra.lookup key).map .value).or ((sig.ownArguments b).lookup key) := by
  obtain ⟨hextra, -, hkeywords⟩ := extra_of_bind hb
  have hkeys := keys_arguments sig b
  simp only [boundCallParams, hb, Option.bind_eq_bind, Option.bind_some] at hp
  cases hvar : sig.varKeyword with
  | none =>
      have hnil : b.extra = [] := by
        by_contra hne
        simpa [hvar] using hkeywords hne
      rw [hvar] at hp
      obtain rfl := Option.some.inj hp
      rw [hnil, Signature.arguments, hvar]
      simp [Signature.ownArguments]
  | some name =>
      have hargs : sig.arguments b = sig.ownArguments b ++ [(name, .mapping b.extra)] := by
        rw [Signature.arguments, hvar]
        rfl
      rw [hargs, List.map_append, List.nodup_append] at hkeys
      have hname : name ∉ (sig.ownArguments b).map Prod.fst := fun hmem =>
        hkeys.2.2 _ hmem _ (by simp) rfl
      have hentries : (sig.arguments b).lookup name = some (.mapping b.extra) := by
        rw [hargs, List.lookup_append, Json.Tree.lookup_eq_none hname]
        simp
      have hown : (sig.arguments b).filter (fun m => m.1 ≠ name) = sig.ownArguments b := by
        have hkept : (sig.ownArguments b).filter (fun m => m.1 ≠ name) = sig.ownArguments b := by
          rw [List.filter_eq_self]
          intro m hm
          simpa using fun heq : m.1 = name => hname (heq ▸ List.mem_map_of_mem hm)
        rw [hargs, List.filter_append, hkept]
        simp
      rw [hvar] at hp
      obtain rfl := Option.some.inj hp
      rw [hentries, hown, entriesOf, Json.Tree.lookup_foldl_upsert (by rwa [map_fst_valued]),
        lookup_valued]

/-! ## Pins and what is received -/

/-- **What the pins promise of a call**: what the body receives under a pinned name is as
pinned, and the amount is the parameter of its name. -/
structure PinsBind (equal : α → Value → Bool) (sig : Signature α) (b : BoundArguments α) (pins : Dict)
    (amountKwarg : Option Units) (params : List (Units × Argument α)) : Prop where
  received : ∀ m ∈ pins, ∀ v, Receives sig b m.1 v → equal v m.2 = true
  amount : ∀ name, amountKwarg = some name → ∀ v, (name, v) ∈ sig.bound b →
    amountArgument amountKwarg params = some (.value v)

/-- A keyword that has the name of a positional-only parameter hides nothing that matters: the
parameter's value is as pinned, or, of the amount, the keyword's own. -/
structure Unhidden (equal : α → Value → Bool) (sig : Signature α) (b : BoundArguments α) (pins : Dict)
    (amountKwarg : Option Units) : Prop where
  pinned : ∀ m ∈ pins, ∀ v, (m.1, v) ∈ b.values sig.positionalOnly → m.1 ∈ b.extra.map Prod.fst →
    equal v m.2 = true
  amount : ∀ name, amountKwarg = some name → ∀ v w, (name, v) ∈ b.values sig.positionalOnly →
    (name, w) ∈ b.extra → w = v

theorem bound_of_positionalOnly {m : Units × α} (h : m ∈ b.values sig.positionalOnly) :
    m ∈ sig.bound b := by
  rw [Signature.bound, SignatureFields.positional, BoundArguments.values, List.filterMap_append,
    List.filterMap_append]
  exact List.mem_append_left _ (List.mem_append_left _ h)

/-- Only a positional-only parameter shares its name with a keyword of `**kwargs`. -/
theorem positionalOnly_of_extra (hb : sig.bind args kwargs = some b) {key : Units} {v : α}
    (h : (key, v) ∈ sig.bound b) (hextra : key ∈ b.extra.map Prod.fst) :
    (key, v) ∈ b.values sig.positionalOnly := by
  have hkey := (extra_of_bind hb).2.1 key hextra
  rw [SignatureFields.byKeyword, List.map_append, List.mem_append, not_or] at hkey
  simp only [Signature.bound, SignatureFields.positional, BoundArguments.values,
    List.filterMap_append, List.mem_append] at h
  rcases h with (h | h) | h
  · exact h
  · exact absurd (mem_values_name h) hkey.1
  · exact absurd (mem_values_name h) hkey.2

end Binding

/-! ## A hidden parameter -/

/-- A tool `def pay(account, /, **details)`. -/
def payTool : Signature Value where
  positionalOnly := [⟨lit "account", none⟩]
  varKeyword := some (lit "details")
  unique := by decide
  named := by decide

/-- The keyword arguments `**{key: "alice"}`. -/
def oneKeyword (key : String) : Keywords Value := ⟨[(lit key, .str (lit "alice"))], by simp⟩

end SwarmAuth.Python
