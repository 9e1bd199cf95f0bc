import SwarmAuth.Lib.Store
import Mathlib.Data.List.Pairwise
import Mathlib.Algebra.Order.Field.Rat
import Mathlib.Tactic.Common

/-!
# Optimistic transactions

Clients share a store. An attempt at a transaction watches keys, reads values and clocks,
and commits writes, one request at a time; a commit goes through only if no watched key was
written since it was watched, else the client starts over. Requests of different clients
interleave in any order. Every attempt that commits has read the values that are there when
it commits: it may be taken to run alone, at its commit.

## Main definitions

* `Attempt`, `Attempt.Ends` — attempts, and the replies that lead to a result.
* `System`, `World`, `step` — clients, what they do next, and one request or one lapse.
* `Consistent` — what an unfinished attempt has seen.
* `Effect`, `Consistent.effect`, `Consistent.step` — **what a step can do**.
-/
namespace SwarmAuth.Optimistic

/-! ## Attempts -/

/-- An attempt: what it asks for next, up to what it raises or commits. -/
inductive Attempt (K V ε α : Type) where
  | time (next : ℚ → Attempt K V ε α)
  | watch (keys : List K) (next : Attempt K V ε α)
  | get (key : K) (next : V → Attempt K V ε α)
  | raise (e : ε)
  | commit (a : α)

/-- A request with its reply; watched keys come with their versions. -/
inductive Reply (K V : Type) where
  | time (now : ℚ)
  | watching (versions : List (K × ℕ))
  | got (key : K) (v : V)

variable {C K V ε α β : Type}

/-- The keys a request watches. -/
def Reply.watched : Reply K V → List (K × ℕ)
  | .watching versions => versions
  | _ => []

/-- A reply as an adapter shows it. -/
def Reply.adapt {V' : Type} (f : V' → V) : Reply K V' → Reply K V
  | .time now => .time now
  | .watching versions => .watching versions
  | .got key v => .got key (f v)

/-- The keys watched so far. -/
def watched (trace : List (Reply K V)) : List (K × ℕ) := trace.flatMap Reply.watched

section Adapt
variable {V' : Type} {f : V' → V} {trace : List (Reply K V')}

/-- Reads of the values there are reads of what the adapter shows of them. -/
theorem current_adapt {value : K → V'} (h : ∀ k v, .got k v ∈ trace → value k = v) :
    ∀ k v, .got k v ∈ trace.map (Reply.adapt f) → f (value k) = v := by
  intro k v hgot
  obtain ⟨r, hr, heq⟩ := List.mem_map.mp hgot
  cases r with
  | time now => exact absurd heq (by simp [Reply.adapt])
  | watching versions => exact absurd heq (by simp [Reply.adapt])
  | got key w =>
      obtain ⟨rfl, rfl⟩ := Reply.got.inj heq
      rw [h key w hr]

/-- Clock reads come after the same watches. -/
theorem fresh_adapt {Fresh : K → ℚ → Prop}
    (h : trace.Pairwise fun a b => ∀ now, b = .time now → ∀ p ∈ a.watched, Fresh p.1 now) :
    (trace.map (Reply.adapt f)).Pairwise fun a b =>
      ∀ now, b = .time now → ∀ p ∈ a.watched, Fresh p.1 now := by
  rw [List.pairwise_map]
  refine h.imp fun {a b} hab now hnow p hp => ?_
  have hb : b = .time now := by
    cases b with
    | time t => rw [Reply.time.inj hnow]
    | watching versions => exact absurd hnow (by simp [Reply.adapt])
    | got key w => exact absurd hnow (by simp [Reply.adapt])
  have ha : p ∈ a.watched := by cases a <;> exact hp
  exact hab now hb p ha

end Adapt

namespace Attempt

/-- Continue with what the attempt commits. -/
def bind (p : Attempt K V ε α) (f : α → Attempt K V ε β) : Attempt K V ε β :=
  match p with
  | time next => time fun now => (next now).bind f
  | watch keys next => watch keys (next.bind f)
  | get key next => get key fun v => (next v).bind f
  | raise e => raise e
  | commit a => f a

instance : Monad (Attempt K V ε) where
  pure := commit
  bind := bind

theorem bind_commit (p : Attempt K V ε α) : p.bind commit = p := by
  induction p with
  | time next ih => exact congrArg time (funext ih)
  | watch keys next ih => exact congrArg (watch keys) ih
  | get key next ih => exact congrArg (get key) (funext ih)
  | raise e => rfl
  | commit a => rfl

theorem bind_assoc {γ : Type} (p : Attempt K V ε α) (f : α → Attempt K V ε β)
    (g : β → Attempt K V ε γ) : (p.bind f).bind g = p.bind fun a => (f a).bind g := by
  induction p with
  | time next ih => exact congrArg time (funext ih)
  | watch keys next ih => exact congrArg (watch keys) ih
  | get key next ih => exact congrArg (get key) (funext ih)
  | raise e => rfl
  | commit a => rfl

instance : LawfulMonad (Attempt K V ε) :=
  LawfulMonad.mk' _ bind_commit (fun _ _ => rfl) bind_assoc

/-- Read the clock. -/
def clock : Attempt K V ε ℚ := time commit

/-- Watch keys. -/
def watchAll (keys : List K) : Attempt K V ε Unit := watch keys (commit ())

/-- Read a key. -/
def read (key : K) : Attempt K V ε V := get key commit

/-- Go on with a value, or raise. -/
def lift : Except ε α → Attempt K V ε α
  | .ok a => commit a
  | .error e => raise e

/-- The replies lead the attempt to this result. -/
def Ends : Attempt K V ε α → List (Reply K V) → Except ε α → Prop
  | time next, trace, r => ∃ now rest, trace = .time now :: rest ∧ (next now).Ends rest r
  | watch keys next, trace, r => ∃ versions rest, trace = .watching versions :: rest ∧
      versions.map Prod.fst = keys ∧ next.Ends rest r
  | get key next, trace, r => ∃ v rest, trace = .got key v :: rest ∧ (next v).Ends rest r
  | raise e, trace, r => trace = [] ∧ r = .error e
  | commit a, trace, r => trace = [] ∧ r = .ok a

/-- The attempt reads only keys it has watched. -/
def Guarded : List K → Attempt K V ε α → Prop
  | keys, time next => ∀ now, (next now).Guarded keys
  | keys, watch more next => next.Guarded (keys ++ more)
  | keys, get key next => key ∈ keys ∧ ∀ v, (next v).Guarded keys
  | _, raise _ => True
  | _, commit _ => True

/-! ### Programs -/

variable {p : Attempt K V ε α} {f : α → Attempt K V ε β} {trace : List (Reply K V)} {r : Except ε β}

/-- A program ends where its first part raises, or where the rest does. -/
theorem ends_bind : (p >>= f).Ends trace r ↔
    (∃ e, r = .error e ∧ p.Ends trace (.error e)) ∨
      ∃ a before after, trace = before ++ after ∧ p.Ends before (.ok a) ∧ (f a).Ends after r := by
  induction p generalizing trace with
  | time next ih =>
      constructor
      · intro h
        obtain ⟨now, rest, rfl, h⟩ := h
        rcases (ih now).mp h with ⟨e, rfl, he⟩ | ⟨a, before, after, rfl, ha, hf⟩
        · exact Or.inl ⟨e, rfl, now, rest, rfl, he⟩
        · exact Or.inr ⟨a, .time now :: before, after, rfl, ⟨now, before, rfl, ha⟩, hf⟩
      · intro h
        rcases h with ⟨e, rfl, now, rest, rfl, he⟩ | ⟨a, before, after, rfl, ⟨now, rest, rfl, ha⟩, hf⟩
        · exact ⟨now, rest, rfl, (ih now).mpr (Or.inl ⟨e, rfl, he⟩)⟩
        · exact ⟨now, rest ++ after, rfl, (ih now).mpr (Or.inr ⟨a, rest, after, rfl, ha, hf⟩)⟩
  | watch keys next ih =>
      constructor
      · intro h
        obtain ⟨versions, rest, rfl, hkeys, h⟩ := h
        rcases ih.mp h with ⟨e, rfl, he⟩ | ⟨a, before, after, rfl, ha, hf⟩
        · exact Or.inl ⟨e, rfl, versions, rest, rfl, hkeys, he⟩
        · exact Or.inr ⟨a, .watching versions :: before, after, rfl,
            ⟨versions, before, rfl, hkeys, ha⟩, hf⟩
      · intro h
        rcases h with ⟨e, rfl, versions, rest, rfl, hkeys, he⟩ |
          ⟨a, before, after, rfl, ⟨versions, rest, rfl, hkeys, ha⟩, hf⟩
        · exact ⟨versions, rest, rfl, hkeys, ih.mpr (Or.inl ⟨e, rfl, he⟩)⟩
        · exact ⟨versions, rest ++ after, rfl, hkeys, ih.mpr (Or.inr ⟨a, rest, after, rfl, ha, hf⟩)⟩
  | get key next ih =>
      constructor
      · intro h
        obtain ⟨v, rest, rfl, h⟩ := h
        rcases (ih v).mp h with ⟨e, rfl, he⟩ | ⟨a, before, after, rfl, ha, hf⟩
        · exact Or.inl ⟨e, rfl, v, rest, rfl, he⟩
        · exact Or.inr ⟨a, .got key v :: before, after, rfl, ⟨v, before, rfl, ha⟩, hf⟩
      · intro h
        rcases h with ⟨e, rfl, v, rest, rfl, he⟩ | ⟨a, before, after, rfl, ⟨v, rest, rfl, ha⟩, hf⟩
        · exact ⟨v, rest, rfl, (ih v).mpr (Or.inl ⟨e, rfl, he⟩)⟩
        · exact ⟨v, rest ++ after, rfl, (ih v).mpr (Or.inr ⟨a, rest, after, rfl, ha, hf⟩)⟩
  | raise e =>
      constructor
      · intro h
        obtain ⟨rfl, rfl⟩ := h
        exact Or.inl ⟨e, rfl, rfl, rfl⟩
      · intro h
        rcases h with ⟨e', rfl, rfl, he⟩ | ⟨a, before, after, -, ⟨-, ha⟩, -⟩
        · exact ⟨rfl, congrArg _ (Except.error.inj he)⟩
        · exact absurd ha nofun
  | commit a =>
      constructor
      · intro h
        exact Or.inr ⟨a, [], trace, rfl, ⟨rfl, rfl⟩, h⟩
      · intro h
        rcases h with ⟨e, -, -, he⟩ | ⟨a', before, after, rfl, ⟨rfl, ha⟩, hf⟩
        · exact absurd he nofun
        · obtain rfl := Except.ok.inj ha
          exact hf

/-- What commits has committed each of its parts. -/
theorem ends_bind_ok {b : β} : (p >>= f).Ends trace (.ok b) ↔
    ∃ a before after, trace = before ++ after ∧ p.Ends before (.ok a) ∧ (f a).Ends after (.ok b) := by
  rw [ends_bind, or_iff_right]
  rintro ⟨e, he, -⟩
  exact absurd he nofun

@[simp] theorem ends_pure {a : α} {r : Except ε α} :
    (pure a : Attempt K V ε α).Ends trace r ↔ trace = [] ∧ r = .ok a := Iff.rfl

@[simp] theorem ends_clock {r : Except ε ℚ} : (clock : Attempt K V ε ℚ).Ends trace r ↔
    ∃ now, trace = [.time now] ∧ r = .ok now := by
  constructor
  · rintro ⟨now, rest, rfl, rfl, rfl⟩
    exact ⟨now, rfl, rfl⟩
  · rintro ⟨now, rfl, rfl⟩
    exact ⟨now, [], rfl, rfl, rfl⟩

@[simp] theorem ends_watchAll {keys : List K} {r : Except ε Unit} :
    (watchAll keys : Attempt K V ε Unit).Ends trace r ↔
      ∃ versions, trace = [.watching versions] ∧ versions.map Prod.fst = keys ∧ r = .ok () := by
  constructor
  · rintro ⟨versions, rest, rfl, hkeys, rfl, rfl⟩
    exact ⟨versions, rfl, hkeys, rfl⟩
  · rintro ⟨versions, rfl, hkeys, rfl⟩
    exact ⟨versions, [], rfl, hkeys, rfl, rfl⟩

@[simp] theorem ends_read {key : K} {r : Except ε V} : (read key : Attempt K V ε V).Ends trace r ↔
    ∃ v, trace = [.got key v] ∧ r = .ok v := by
  constructor
  · rintro ⟨v, rest, rfl, rfl, rfl⟩
    exact ⟨v, rfl, rfl⟩
  · rintro ⟨v, rfl, rfl⟩
    exact ⟨v, [], rfl, rfl, rfl⟩

@[simp] theorem ends_lift {x r : Except ε α} : (lift x : Attempt K V ε α).Ends trace r ↔
    trace = [] ∧ r = x := by
  cases x <;> rfl

/-- Reading keys one after another. -/
theorem ends_mapM_read {keys : List K} {vs : List V} :
    (keys.mapM read : Attempt K V ε (List V)).Ends trace (.ok vs) ↔
      trace = (keys.zip vs).map (fun p => Reply.got p.1 p.2) ∧ vs.length = keys.length := by
  induction keys generalizing trace vs with
  | nil =>
      rw [List.mapM_nil, ends_pure]
      simp
  | cons key keys ih =>
      rw [List.mapM_cons, ends_bind_ok]
      constructor
      · intro h
        obtain ⟨v, before, after, rfl, hread, hrest⟩ := h
        obtain ⟨vs', mid, after', rfl, hvs, hpure⟩ := ends_bind_ok.mp hrest
        obtain ⟨v', rfl, hv⟩ := ends_read.mp hread
        obtain ⟨rfl, hlen⟩ := ih.mp hvs
        obtain ⟨rfl, hok⟩ := ends_pure.mp hpure
        obtain rfl := Except.ok.inj hv
        obtain rfl := Except.ok.inj hok
        simp [hlen]
      · intro h
        obtain ⟨rfl, hlen⟩ := h
        cases vs with
        | nil => simp at hlen
        | cons v vs =>
            refine ⟨v, [.got key v], (keys.zip vs).map fun p => .got p.1 p.2, rfl,
              ends_read.mpr ⟨v, rfl, rfl⟩, ends_bind_ok.mpr ?_⟩
            exact ⟨vs, _, [], (List.append_nil _).symm, ih.mpr ⟨rfl, by simpa using hlen⟩, rfl, rfl⟩

/-- What holds of each element that commits, on a part of the replies. -/
theorem forall₂_of_ends_mapM {g : α → Attempt K V ε β} {P : α → β → Prop} {l : List α}
    {bs : List β}
    (hone : ∀ a ∈ l, ∀ b part, part ⊆ trace → (g a).Ends part (.ok b) → P a b)
    (h : (l.mapM g).Ends trace (.ok bs)) : List.Forall₂ P l bs := by
  induction l generalizing trace bs with
  | nil =>
      obtain ⟨-, hbs⟩ := ends_pure.mp h
      obtain rfl := Except.ok.inj hbs
      exact .nil
  | cons a l ih =>
      rw [List.mapM_cons] at h
      obtain ⟨b, before, rest, rfl, hb, h⟩ := ends_bind_ok.mp h
      obtain ⟨bs', after, last, rfl, hbs', h⟩ := ends_bind_ok.mp h
      obtain ⟨-, hbs⟩ := ends_pure.mp h
      obtain rfl := Except.ok.inj hbs
      refine .cons (hone a List.mem_cons_self b before (List.subset_append_left _ _) hb) ?_
      apply ih (fun a' ha' b' part hpart => ?_) hbs'
      apply hone a' (List.mem_cons_of_mem a ha') b' part
      intro r hr
      exact List.mem_append_right _ (List.mem_append_left _ (hpart hr))

/-- What is made of a key is made of the value there. -/
theorem read_lift_current {value : K → V} {k : K} {f : V → Except ε α} {a : α}
    {part : List (Reply K V)} (hcurrent : ∀ k v, .got k v ∈ trace → value k = v)
    (hpart : part ⊆ trace)
    (h : (read k >>= fun v => lift (f v) : Attempt K V ε α).Ends part (.ok a)) :
    f (value k) = .ok a := by
  obtain ⟨v, before, after, rfl, hread, hlift⟩ := ends_bind_ok.mp h
  obtain ⟨v', rfl, hv⟩ := ends_read.mp hread
  have hgot : .got k v' ∈ trace := hpart (List.mem_append_left _ (List.mem_singleton_self _))
  rw [hcurrent k v' hgot, ← Except.ok.inj hv]
  exact (ends_lift.mp hlift).2.symm

/-! ### Guards -/

variable {keys : List K}

theorem Guarded.mono {more : List K} (h : p.Guarded keys) (hsub : keys ⊆ more) : p.Guarded more := by
  induction p generalizing keys more with
  | time next ih => exact fun now => ih now (h now) hsub
  | watch new next ih =>
      apply ih h
      exact List.append_subset.mpr
        ⟨List.Subset.trans hsub (List.subset_append_left _ _), List.subset_append_right _ _⟩
  | get key next ih => exact ⟨hsub h.1, fun v => ih v (h.2 v) hsub⟩
  | raise e => trivial
  | commit a => trivial

theorem Guarded.bind (h : p.Guarded keys) (hf : ∀ a, (f a).Guarded keys) :
    (p >>= f).Guarded keys := by
  induction p generalizing keys with
  | time next ih => exact fun now => ih now (h now) hf
  | watch new next ih => exact ih h fun a => (hf a).mono (List.subset_append_left _ _)
  | get key next ih => exact ⟨h.1, fun v => ih v (h.2 v) hf⟩
  | raise e => trivial
  | commit a => exact hf a

theorem guarded_lift (x : Except ε α) : (lift x : Attempt K V ε α).Guarded keys := by
  cases x <;> trivial

/-- What follows a watch may read the watched keys. -/
theorem guarded_watchAll_bind {new : List K} {f : Unit → Attempt K V ε β}
    (h : (f ()).Guarded (keys ++ new)) : (watchAll new >>= f).Guarded keys := h

theorem guarded_clock : (clock : Attempt K V ε ℚ).Guarded keys := fun _ => trivial

theorem guarded_read {key : K} (h : key ∈ keys) : (read key : Attempt K V ε V).Guarded keys :=
  ⟨h, fun _ => trivial⟩

theorem guarded_mapM {l : List β} {g : β → Attempt K V ε α} (h : ∀ b ∈ l, (g b).Guarded keys) :
    (l.mapM g).Guarded keys := by
  induction l with
  | nil => trivial
  | cons b l ih =>
      rw [List.mapM_cons]
      apply Guarded.bind (h b List.mem_cons_self)
      intro a
      apply Guarded.bind (ih fun b hb => h b (List.mem_cons_of_mem _ hb))
      intro as
      trivial

/-! ### Adapted -/

section Adapt
variable {V' ε' : Type}

/-- The same attempt over a store of other values, with its results renamed. -/
def adapt (f : V' → V) (g : ε → ε') (h : α → β) : Attempt K V ε α → Attempt K V' ε' β
  | time next => time fun now => (next now).adapt f g h
  | watch keys next => watch keys (next.adapt f g h)
  | get key next => get key fun v => (next (f v)).adapt f g h
  | raise e => raise (g e)
  | commit a => commit (h a)

variable {f : V' → V} {g : ε → ε'} {h : α → β}

/-- An adapted attempt sees its values through the adapter. -/
theorem ends_adapt_ok {trace : List (Reply K V')} {b : β} (hends : (p.adapt f g h).Ends trace (.ok b)) :
    ∃ a, b = h a ∧ p.Ends (trace.map (Reply.adapt f)) (.ok a) := by
  induction p generalizing trace with
  | time next ih =>
      obtain ⟨now, rest, rfl, hrest⟩ := hends
      obtain ⟨a, hb, ha⟩ := ih now hrest
      exact ⟨a, hb, now, rest.map (Reply.adapt f), rfl, ha⟩
  | watch keys next ih =>
      obtain ⟨versions, rest, rfl, hkeys, hrest⟩ := hends
      obtain ⟨a, hb, ha⟩ := ih hrest
      exact ⟨a, hb, versions, rest.map (Reply.adapt f), rfl, hkeys, ha⟩
  | get key next ih =>
      obtain ⟨v, rest, rfl, hrest⟩ := hends
      obtain ⟨a, hb, ha⟩ := ih (f v) hrest
      exact ⟨a, hb, f v, rest.map (Reply.adapt f), rfl, ha⟩
  | raise e => exact absurd hends.2 (by simp)
  | commit a =>
      obtain ⟨rfl, hb⟩ := hends
      exact ⟨a, Except.ok.inj hb, rfl, rfl⟩

theorem Guarded.adapt (hp : p.Guarded keys) : (p.adapt f g h).Guarded keys := by
  induction p generalizing keys with
  | time next ih => exact fun now => ih now (hp now)
  | watch new next ih => exact ih hp
  | get key next ih => exact ⟨hp.1, fun v => ih (f v) (hp.2 (f v))⟩
  | raise e => trivial
  | commit a => trivial

end Adapt

/-! ### Alone -/

/-- An attempt that no other client disturbs, at one clock read. -/
def run (value : K → V) (now : ℚ) : Attempt K V ε α → Except ε α
  | time next => (next now).run value now
  | watch _ next => next.run value now
  | get key next => (next (value key)).run value now
  | raise e => .error e
  | commit a => .ok a

variable (value : K → V) (now : ℚ)

theorem run_bind : (p >>= f).run value now = p.run value now >>= fun a => (f a).run value now := by
  induction p with
  | time next ih => exact ih now
  | watch keys next ih => exact ih
  | get key next ih => exact ih (value key)
  | raise e => rfl
  | commit a => rfl

@[simp] theorem run_pure (a : α) : (pure a : Attempt K V ε α).run value now = .ok a := rfl

@[simp] theorem run_clock : (clock : Attempt K V ε ℚ).run value now = .ok now := rfl

@[simp] theorem run_watchAll (keys : List K) :
    (watchAll keys : Attempt K V ε Unit).run value now = .ok () := rfl

@[simp] theorem run_read (key : K) :
    (read key : Attempt K V ε V).run value now = .ok (value key) := rfl

@[simp] theorem run_lift (x : Except ε α) : (lift x : Attempt K V ε α).run value now = x := by
  cases x <;> rfl

theorem run_mapM (l : List β) (g : β → Attempt K V ε α) :
    (l.mapM g).run value now = l.mapM fun b => (g b).run value now := by
  induction l with
  | nil => rfl
  | cons b l ih => simp only [List.mapM_cons, run_bind, ih, run_pure]; rfl

end Attempt

/-! ## Systems -/

/-- A system: the attempt a client makes after so many aborted ones, what a commit writes at
a time of the server's, and when the server changes a key on its own. -/
structure System (C K V ε α : Type) where
  program : C → ℕ → Attempt K V ε α
  writes : α → ℚ → List (K × (V → V))
  lapse : K → ℚ → V → Option V := fun _ _ _ => none

/-- A client has not started, is at some point of an attempt, or is done. -/
inductive Status (K V ε α : Type) where
  | idle
  | running (failed : ℕ) (trace : List (Reply K V)) (rest : Attempt K V ε α)
  | ended (r : Except ε α)

/-- The values, with a count of the changes of each key, and the clients. -/
structure World (C K V ε α : Type) where
  value : K → V
  version : K → ℕ := fun _ => 0
  status : C → Status K V ε α := fun _ => .idle

/-- A client is done. -/
structure Event (C K V ε α : Type) where
  client : C
  trace : List (Reply K V)
  result : Except ε α

/-- A client's turn, or the server's to change a key. -/
inductive Action (C K : Type) where
  | client (c : C)
  | lapse (k : K)

section Seen
variable (sys : System C K V ε α)

/-! ## What an attempt has seen -/

/-- Values that may have been read (`Seen`) and clock reads that are no older than a key
(`Fresh`): an attempt's reads of unchanged keys are the values there, and its clock reads
are fresh for the unchanged keys watched before them. -/
structure Sound (Seen : K → V → Prop) (Fresh : K → ℚ → Prop) (w : World C K V ε α) (c : C)
    (failed : ℕ) (trace : List (Reply K V)) (rest : Attempt K V ε α) : Prop where
  guarded : rest.Guarded ((watched trace).map Prod.fst)
  leads : ∀ more r, rest.Ends more r → (sys.program c failed).Ends (trace ++ more) r
  older : ∀ p ∈ watched trace, p.2 ≤ w.version p.1
  seen : ∀ k v, .got k v ∈ trace → Seen k v
  current : ∀ k v, .got k v ∈ trace →
    ∃ n, (k, n) ∈ watched trace ∧ (w.version k = n → w.value k = v)
  fresh : trace.Pairwise fun a b => ∀ now, b = .time now →
    ∀ p ∈ a.watched, w.version p.1 = p.2 → Fresh p.1 now

/-- What holds of every unfinished attempt. -/
def Consistent (Seen : K → V → Prop) (Fresh : K → ℚ → Prop) (w : World C K V ε α) : Prop :=
  ∀ c failed trace rest, w.status c = .running failed trace rest →
    Sound sys Seen Fresh w c failed trace rest

variable {sys} {Seen Seen' : K → V → Prop} {Fresh Fresh' : K → ℚ → Prop}
  {w w' : World C K V ε α} {c : C} {failed : ℕ} {trace : List (Reply K V)} {now : ℚ}

theorem watched_append (trace : List (Reply K V)) (r : Reply K V) :
    watched (trace ++ [r]) = watched trace ++ r.watched := by
  simp [watched]

/-- An attempt has seen nothing when it starts. -/
theorem Sound.start (h : (sys.program c failed).Guarded []) :
    Sound sys Seen Fresh w c failed [] (sys.program c failed) where
  guarded := h
  leads _ _ hends := hends
  older _ hp := absurd hp List.not_mem_nil
  seen _ _ hgot := absurd hgot List.not_mem_nil
  current _ _ hgot := absurd hgot List.not_mem_nil
  fresh := List.Pairwise.nil

/-- Other clients and the server may change keys meanwhile. -/
theorem Sound.later {rest : Attempt K V ε α} (hs : Sound sys Seen Fresh w c failed trace rest)
    (hversion : ∀ k, w.version k ≤ w'.version k)
    (hvalue : ∀ k, w'.version k = w.version k → w'.value k = w.value k)
    (hseen : ∀ k v, Seen k v → Seen' k v)
    (hfresh : ∀ k now, w'.version k = w.version k → Fresh k now → Fresh' k now) :
    Sound sys Seen' Fresh' w' c failed trace rest := by
  -- a watched key whose version is still the same has not changed in between
  have hsame : ∀ p ∈ watched trace, w'.version p.1 = p.2 →
      w.version p.1 = p.2 ∧ w'.version p.1 = w.version p.1 := by
    intro p hp hn
    have hle := hs.older p hp
    have hle' := hversion p.1
    omega
  refine ⟨hs.guarded, hs.leads, ?_, fun k v hgot => hseen k v (hs.seen k v hgot), ?_, ?_⟩
  · exact fun p hp => (hs.older p hp).trans (hversion p.1)
  · intro k v hgot
    obtain ⟨n, hn, hv⟩ := hs.current k v hgot
    refine ⟨n, hn, fun hcur => ?_⟩
    obtain ⟨hold, hkeep⟩ := hsame (k, n) hn hcur
    rw [hvalue k hkeep, hv hold]
  · apply hs.fresh.imp_of_mem
    intro a b ha _ hab t hb p hp hcur
    have hwatched : p ∈ watched trace := List.mem_flatMap.mpr ⟨a, ha, hp⟩
    obtain ⟨hold, hkeep⟩ := hsame p hwatched hcur
    exact hfresh p.1 t hkeep (hab t hb p hp hold)

theorem Sound.time {next : ℚ → Attempt K V ε α}
    (hs : Sound sys Seen Fresh w c failed trace (.time next)) (hfresh : ∀ k, Fresh k now) :
    Sound sys Seen Fresh w c failed (trace ++ [.time now]) (next now) where
  guarded := by
    rw [watched_append]
    simpa [Reply.watched] using hs.guarded now
  leads more r hends := by
    rw [List.append_assoc]
    exact hs.leads _ r ⟨now, more, rfl, hends⟩
  older p hp := by
    rw [watched_append] at hp
    exact hs.older p (by simpa [Reply.watched] using hp)
  seen k v hgot := hs.seen k v (by simpa using hgot)
  current k v hgot := by
    rw [watched_append]
    simpa [Reply.watched] using hs.current k v (by simpa using hgot)
  fresh := by
    rw [List.pairwise_append]
    refine ⟨hs.fresh, List.pairwise_singleton _ _, ?_⟩
    intro a _ b hb t ht p _ _
    rw [List.mem_singleton.mp hb, Reply.time.injEq] at ht
    exact ht ▸ hfresh p.1

theorem Sound.watch {keys : List K} {next : Attempt K V ε α}
    (hs : Sound sys Seen Fresh w c failed trace (.watch keys next)) :
    Sound sys Seen Fresh w c failed (trace ++ [.watching (keys.map fun k => (k, w.version k))]) next where
  guarded := by
    have hguarded : next.Guarded ((watched trace).map Prod.fst ++ keys) := hs.guarded
    rw [watched_append, List.map_append]
    simpa [Reply.watched, Function.comp_def] using hguarded
  leads more r hends := by
    rw [List.append_assoc]
    exact hs.leads _ r ⟨_, more, rfl, by simp [Function.comp_def], hends⟩
  older p hp := by
    rw [watched_append, List.mem_append] at hp
    rcases hp with hp | hp
    · exact hs.older p hp
    · obtain ⟨k, -, rfl⟩ := List.mem_map.mp hp
      exact le_rfl
  seen k v hgot := hs.seen k v (by simpa using hgot)
  current k v hgot := by
    rw [watched_append]
    obtain ⟨n, hn, hv⟩ := hs.current k v (by simpa using hgot)
    exact ⟨n, List.mem_append_left _ hn, hv⟩
  fresh := by
    rw [List.pairwise_append]
    refine ⟨hs.fresh, List.pairwise_singleton _ _, ?_⟩
    intro a _ b hb t ht
    rw [List.mem_singleton.mp hb] at ht
    exact absurd ht nofun

theorem Sound.get {key : K} {next : V → Attempt K V ε α}
    (hs : Sound sys Seen Fresh w c failed trace (.get key next)) (hseen : Seen key (w.value key)) :
    Sound sys Seen Fresh w c failed (trace ++ [.got key (w.value key)]) (next (w.value key)) where
  guarded := by
    rw [watched_append]
    simpa [Reply.watched] using hs.guarded.2 (w.value key)
  leads more r hends := by
    rw [List.append_assoc]
    exact hs.leads _ r ⟨w.value key, more, rfl, hends⟩
  older p hp := by
    rw [watched_append] at hp
    exact hs.older p (by simpa [Reply.watched] using hp)
  seen k v hgot := by
    rcases List.mem_append.mp hgot with hold | hnew
    · exact hs.seen k v hold
    · obtain ⟨rfl, rfl⟩ := Reply.got.inj (List.mem_singleton.mp hnew)
      exact hseen
  current k v hgot := by
    rw [watched_append]
    rcases List.mem_append.mp hgot with hold | hnew
    · obtain ⟨n, hn, hv⟩ := hs.current k v hold
      exact ⟨n, List.mem_append_left _ hn, hv⟩
    · obtain ⟨rfl, rfl⟩ := Reply.got.inj (List.mem_singleton.mp hnew)
      obtain ⟨p, hp, hk⟩ := List.mem_map.mp hs.guarded.1
      refine ⟨p.2, List.mem_append_left _ ?_, fun _ => rfl⟩
      rw [← hk]
      exact hp
  fresh := by
    rw [List.pairwise_append]
    refine ⟨hs.fresh, List.pairwise_singleton _ _, ?_⟩
    intro a _ b hb t ht
    rw [List.mem_singleton.mp hb] at ht
    exact absurd ht nofun

end Seen

/-! ## Steps -/

section Steps
variable [DecidableEq C] [DecidableEq K] (sys : System C K V ε α)

/-- The client is done. -/
def World.finish (w : World C K V ε α) (c : C) (trace : List (Reply K V)) (r : Except ε α) :
    Option (Event C K V ε α) × World C K V ε α :=
  (some ⟨c, trace, r⟩, { w with status := Function.update w.status c (.ended r) })

/-- The client goes on; what it raises ends it at once. -/
def World.enter (w : World C K V ε α) (c : C) (failed : ℕ) (trace : List (Reply K V)) :
    Attempt K V ε α → Option (Event C K V ε α) × World C K V ε α
  | .raise e => w.finish c trace (.error e)
  | rest => (none, { w with status := Function.update w.status c (.running failed trace rest) })

/-- Run commands; the keys they name have changed. -/
def World.write (w : World C K V ε α) (commands : List (K × (V → V))) : World C K V ε α :=
  { w with
    value := Store.modifyAll w.value commands
    version := fun k => if k ∈ commands.map Prod.fst then w.version k + 1 else w.version k }

/-- No watched key has changed. -/
def World.unchanged (w : World C K V ε α) (trace : List (Reply K V)) : Bool :=
  (watched trace).all fun p => w.version p.1 = p.2

/-- A client makes its next request. -/
def clientStep (w : World C K V ε α) (c : C) (now : ℚ) :
    Option (Event C K V ε α) × World C K V ε α :=
  match w.status c with
  | .idle => w.enter c 0 [] (sys.program c 0)
  | .ended _ => (none, w)
  | .running failed trace rest =>
      match rest with
      | .time next => w.enter c failed (trace ++ [.time now]) (next now)
      | .watch keys next =>
          w.enter c failed (trace ++ [.watching (keys.map fun k => (k, w.version k))]) next
      | .get key next => w.enter c failed (trace ++ [.got key (w.value key)]) (next (w.value key))
      | .raise _ => (none, w)
      | .commit a =>
          if w.unchanged trace then (w.write (sys.writes a now)).finish c trace (.ok a)
          else w.enter c (failed + 1) [] (sys.program c (failed + 1))

/-- A step, at a time. -/
def step (w : World C K V ε α) : Action C K × ℚ → Option (Event C K V ε α) × World C K V ε α
  | (.client c, now) => clientStep sys w c now
  | (.lapse k, now) =>
      match sys.lapse k now (w.value k) with
      | some v => (none, w.write [(k, fun _ => v)])
      | none => (none, w)

/-- The log has one event of each client that is done, and no other. -/
def Logged (w : World C K V ε α) (h : List (Event C K V ε α)) : Prop :=
  ∀ c, match w.status c with
    | .ended r => ∃ trace, (h.filter fun e => e.client = c) = [⟨c, trace, r⟩]
    | _ => (h.filter fun e => e.client = c) = []

/-- What a step can do: nothing but let a client go on; end a client that raises; commit
what an attempt commits that runs alone on the values there; or change a key that lapses. -/
inductive Effect (Seen : K → V → Prop) (Fresh : K → ℚ → Prop) (w : World C K V ε α) (now : ℚ) :
    Option (Event C K V ε α) → World C K V ε α → Prop
  | quiet (w' : World C K V ε α) (hvalue : w'.value = w.value) (hversion : w'.version = w.version) :
      Effect Seen Fresh w now none w'
  | raised (w' : World C K V ε α) (hvalue : w'.value = w.value) (hversion : w'.version = w.version)
      (c : C) (failed : ℕ) (trace : List (Reply K V)) (e : ε)
      (hends : (sys.program c failed).Ends trace (.error e))
      (hseen : ∀ k v, .got k v ∈ trace → Seen k v) :
      Effect Seen Fresh w now (some ⟨c, trace, .error e⟩) w'
  | committed (w' : World C K V ε α) (c : C) (failed : ℕ) (trace : List (Reply K V)) (a : α)
      (hends : (sys.program c failed).Ends trace (.ok a))
      (hcurrent : ∀ k v, .got k v ∈ trace → w.value k = v)
      (hfresh : trace.Pairwise fun a b => ∀ now, b = .time now → ∀ p ∈ a.watched, Fresh p.1 now)
      (hvalue : w'.value = (w.write (sys.writes a now)).value)
      (hversion : w'.version = (w.write (sys.writes a now)).version) :
      Effect Seen Fresh w now (some ⟨c, trace, .ok a⟩) w'
  | lapsed (w' : World C K V ε α) (k : K) (v : V) (hlapse : sys.lapse k now (w.value k) = some v)
      (hw' : w' = w.write [(k, fun _ => v)]) : Effect Seen Fresh w now none w'

variable {sys} {Seen Seen' : K → V → Prop} {Fresh Fresh' : K → ℚ → Prop}
  {w w' : World C K V ε α} {c : C} {failed : ℕ} {trace : List (Reply K V)} {now : ℚ}

/-! ## What a step can do -/

/-- A client that is not done goes on with an attempt, or its commit goes through. -/
theorem clientStep_cases (hsys : ∀ c failed, (sys.program c failed).Guarded [])
    (hinv : Consistent sys Seen Fresh w) (hseen : ∀ k, Seen k (w.value k)) (hfresh : ∀ k, Fresh k now)
    (c : C) :
    clientStep sys w c now = (none, w) ∨ (∀ r, w.status c ≠ .ended r) ∧
      ((∃ failed trace rest, Sound sys Seen Fresh w c failed trace rest ∧
        clientStep sys w c now = w.enter c failed trace rest) ∨
      ∃ failed trace a, Sound sys Seen Fresh w c failed trace (.commit a) ∧ w.unchanged trace = true ∧
        clientStep sys w c now = (w.write (sys.writes a now)).finish c trace (.ok a)) := by
  cases hstatus : w.status c with
  | idle =>
      refine Or.inr ⟨nofun, Or.inl ⟨0, [], sys.program c 0, .start (hsys c 0), ?_⟩⟩
      rw [clientStep, hstatus]
  | ended r =>
      left
      rw [clientStep, hstatus]
  | running failed trace rest =>
      have hs := hinv c failed trace rest hstatus
      rw [clientStep, hstatus]
      cases rest with
      | time next => exact Or.inr ⟨nofun, Or.inl ⟨failed, _, _, hs.time hfresh, rfl⟩⟩
      | watch keys next => exact Or.inr ⟨nofun, Or.inl ⟨failed, _, _, hs.watch, rfl⟩⟩
      | get key next => exact Or.inr ⟨nofun, Or.inl ⟨failed, _, _, hs.get (hseen key), rfl⟩⟩
      | raise e => exact Or.inl rfl
      | commit a =>
          refine Or.inr ⟨nofun, ?_⟩
          by_cases hsame : w.unchanged trace = true
          · exact Or.inr ⟨failed, trace, a, hs, hsame, if_pos hsame⟩
          · exact Or.inl ⟨failed + 1, [], _, .start (hsys c (failed + 1)), if_neg hsame⟩

omit [DecidableEq K] in
theorem enter_cases (w : World C K V ε α) (c : C) (failed : ℕ) (trace : List (Reply K V))
    (rest : Attempt K V ε α) :
    (∃ e, rest = .raise e ∧ w.enter c failed trace rest = w.finish c trace (.error e)) ∨
      w.enter c failed trace rest =
        (none, { w with status := Function.update w.status c (.running failed trace rest) }) := by
  cases rest with
  | raise e => exact Or.inl ⟨e, rfl, rfl⟩
  | time next => exact Or.inr rfl
  | watch keys next => exact Or.inr rfl
  | get key next => exact Or.inr rfl
  | commit a => exact Or.inr rfl

/-- **What a step can do**, when the clock reads of a client's turn are fresh. -/
theorem Consistent.effect (hinv : Consistent sys Seen Fresh w)
    (hsys : ∀ c failed, (sys.program c failed).Guarded []) (hseen : ∀ k, Seen k (w.value k))
    (i : Action C K) (hfresh : ∀ c, i = .client c → ∀ k, Fresh k now) :
    Effect sys Seen Fresh w now (step sys w (i, now)).1 (step sys w (i, now)).2 := by
  cases i with
  | lapse k =>
      simp only [step]
      cases hlapse : sys.lapse k now (w.value k) with
      | none => exact .quiet w rfl rfl
      | some v => exact .lapsed _ k v hlapse rfl
  | client c =>
      simp only [step]
      rcases clientStep_cases hsys hinv hseen (hfresh c rfl) c with
        hstep | ⟨-, ⟨failed, trace, rest, hs, hstep⟩ | ⟨failed, trace, a, hs, hsame, hstep⟩⟩
      · rw [hstep]
        exact .quiet w rfl rfl
      · rw [hstep]
        rcases enter_cases w c failed trace rest with ⟨e, rfl, henter⟩ | henter
        · rw [henter]
          have hsame : (w.finish c trace (.error e)).2.value = w.value ∧
              (w.finish c trace (.error e)).2.version = w.version := ⟨rfl, rfl⟩
          refine .raised _ hsame.1 hsame.2 c failed trace e ?_ hs.seen
          simpa using hs.leads [] (.error e) ⟨rfl, rfl⟩
        · rw [henter]
          exact .quiet _ rfl rfl
      · rw [hstep]
        simp only [World.unchanged, List.all_eq_true, decide_eq_true_eq] at hsame
        refine .committed _ c failed trace a ?_ ?_ ?_ rfl rfl
        · simpa using hs.leads [] (.ok a) ⟨rfl, rfl⟩
        · intro k v hgot
          obtain ⟨n, hn, hv⟩ := hs.current k v hgot
          exact hv (hsame (k, n) hn)
        · apply hs.fresh.imp_of_mem
          intro b b' hb _ hab t ht p hp
          exact hab t ht p hp (hsame p (List.mem_flatMap.mpr ⟨b, hb, hp⟩))

omit [DecidableEq C] in
/-- A write changes the version of what it changes. -/
theorem write_later (w : World C K V ε α) (commands : List (K × (V → V))) :
    (∀ k, w.version k ≤ (w.write commands).version k) ∧
      ∀ k, (w.write commands).version k = w.version k → (w.write commands).value k = w.value k := by
  refine ⟨?_, ?_⟩
  · intro k
    simp only [World.write]
    split_ifs <;> omega
  · intro k hk
    apply Store.modifyAll_of_not_mem
    intro hmem
    simp only [World.write, if_pos hmem] at hk
    omega

/-- A step changes the version of what it changes. -/
theorem step_later (sys : System C K V ε α) (w : World C K V ε α) (i : Action C K × ℚ) :
    (∀ k, w.version k ≤ (step sys w i).2.version k) ∧
      ∀ k, (step sys w i).2.version k = w.version k → (step sys w i).2.value k = w.value k := by
  have hsame : (∀ k, w.version k ≤ w.version k) ∧
      ∀ k, w.version k = w.version k → w.value k = w.value k := ⟨fun _ => le_rfl, fun _ _ => rfl⟩
  have henter : ∀ c failed trace rest,
      (∀ k, w.version k ≤ (w.enter c failed trace rest).2.version k) ∧
        ∀ k, (w.enter c failed trace rest).2.version k = w.version k →
          (w.enter c failed trace rest).2.value k = w.value k := by
    intro c failed trace rest
    rcases enter_cases w c failed trace rest with ⟨e, -, henter⟩ | henter <;> rw [henter] <;> exact hsame
  obtain ⟨i, now⟩ := i
  cases i with
  | lapse k =>
      simp only [step]
      cases sys.lapse k now (w.value k) with
      | none => exact hsame
      | some v => exact write_later w _
  | client c =>
      simp only [step, clientStep]
      cases w.status c with
      | idle => exact henter c 0 [] _
      | ended r => exact hsame
      | running failed trace rest =>
          cases rest with
          | time next => exact henter c failed _ _
          | watch keys next => exact henter c failed _ _
          | get key next => exact henter c failed _ _
          | raise e => exact hsame
          | commit a =>
              by_cases hunchanged : w.unchanged trace = true
              · simp only [if_pos hunchanged]
                exact write_later w _
              · simp only [if_neg hunchanged]
                exact henter c (failed + 1) [] _

omit [DecidableEq K] in
/-- Other clients' attempts see no more of a client's step than its writes. -/
theorem Consistent.update (hinv : Consistent sys Seen Fresh w) (status : Status K V ε α)
    (hstatus : w'.status = Function.update w.status c status)
    (hlater : (∀ k, w.version k ≤ w'.version k) ∧
      ∀ k, w'.version k = w.version k → w'.value k = w.value k)
    (hown : ∀ failed trace rest, status = .running failed trace rest →
      Sound sys Seen Fresh w c failed trace rest)
    (hseen : ∀ k v, Seen k v → Seen' k v)
    (hfresh : ∀ k now, w'.version k = w.version k → Fresh k now → Fresh' k now) :
    Consistent sys Seen' Fresh' w' := by
  intro d failed trace rest hd
  rw [hstatus] at hd
  by_cases hdc : d = c
  · subst hdc
    rw [Function.update_self] at hd
    exact (hown failed trace rest hd).later hlater.1 hlater.2 hseen hfresh
  · rw [Function.update_of_ne hdc] at hd
    exact (hinv d failed trace rest hd).later hlater.1 hlater.2 hseen hfresh

/-- **Every step keeps unfinished attempts consistent**, while what they have seen stays
seen, and what is fresh of a key that does not change stays fresh. -/
theorem Consistent.step (hinv : Consistent sys Seen Fresh w)
    (hsys : ∀ c failed, (sys.program c failed).Guarded []) (hseen : ∀ k, Seen k (w.value k))
    (i : Action C K) (hfresh : ∀ c, i = .client c → ∀ k, Fresh k now)
    (hw' : (Optimistic.step sys w (i, now)).2 = w') (hseen' : ∀ k v, Seen k v → Seen' k v)
    (hfresh' : ∀ k now, w'.version k = w.version k → Fresh k now → Fresh' k now) :
    Consistent sys Seen' Fresh' w' := by
  have hlater := step_later sys w (i, now)
  rw [hw'] at hlater
  have hkeep : w'.status = w.status → Consistent sys Seen' Fresh' w' := by
    intro hstatus d failed trace rest hd
    rw [hstatus] at hd
    exact (hinv d failed trace rest hd).later hlater.1 hlater.2 hseen' hfresh'
  cases i with
  | lapse k =>
      apply hkeep
      rw [← hw']
      simp only [Optimistic.step]
      split <;> rfl
  | client c =>
      simp only [Optimistic.step] at hw'
      rcases clientStep_cases hsys hinv hseen (hfresh c rfl) c with
        hstep | ⟨-, ⟨failed, trace, rest, hs, hstep⟩ | ⟨failed, trace, a, -, -, hstep⟩⟩
      · apply hkeep
        rw [← hw', hstep]
      · rw [hstep] at hw'
        rcases enter_cases w c failed trace rest with ⟨e, rfl, henter⟩ | henter
        · rw [henter] at hw'
          exact hinv.update (.ended (.error e)) (by rw [← hw']; rfl) hlater nofun hseen' hfresh'
        · rw [henter] at hw'
          refine hinv.update (.running failed trace rest) (by rw [← hw']) hlater ?_ hseen' hfresh'
          intro failed' trace' rest' heq
          obtain ⟨rfl, rfl, rfl⟩ := Status.running.inj heq
          exact hs
      · rw [hstep] at hw'
        exact hinv.update (.ended (.ok a)) (by rw [← hw']; rfl) hlater nofun hseen' hfresh'

omit [DecidableEq C] [DecidableEq K] in
/-- Nothing is running at first. -/
theorem Consistent.init (sys : System C K V ε α) (Seen : K → V → Prop) (Fresh : K → ℚ → Prop)
    (value : K → V) : Consistent sys Seen Fresh { value := value } := nofun

/-! ## The log -/

variable {h : List (Event C K V ε α)}

/-- A step logs a client that is done, once. -/
theorem Logged.step (hlog : Logged w h) (hinv : Consistent sys Seen Fresh w)
    (hsys : ∀ c failed, (sys.program c failed).Guarded []) (hseen : ∀ k, Seen k (w.value k))
    (i : Action C K) (hfresh : ∀ c, i = .client c → ∀ k, Fresh k now) :
    Logged (Optimistic.step sys w (i, now)).2 (h ++ (Optimistic.step sys w (i, now)).1.toList) := by
  -- a client ends, with the event of its end, or goes on
  have hfinish : ∀ (u : World C K V ε α) c trace r, u.status = w.status → (∀ r, w.status c ≠ .ended r) →
      Logged (u.finish c trace r).2 (h ++ [⟨c, trace, r⟩]) := by
    intro u c trace r hu hc d
    have hd := hlog d
    simp only [World.finish, hu, List.filter_append]
    by_cases hdc : d = c
    · subst hdc
      rw [Function.update_self]
      refine ⟨trace, ?_⟩
      cases hstatus : w.status d with
      | ended r' => exact absurd hstatus (hc r')
      | idle => simpa [hstatus] using hd
      | running failed trace' rest => simpa [hstatus] using hd
    · rw [Function.update_of_ne hdc]
      have hne : ¬ c = d := fun heq => hdc heq.symm
      simpa [hne] using hd
  have hquiet : ∀ (u : World C K V ε α) c failed trace rest, u.status =
      Function.update w.status c (.running failed trace rest) → (∀ r, w.status c ≠ .ended r) →
      Logged u (h ++ []) := by
    intro u c failed trace rest hu hc d
    have hd := hlog d
    rw [hu, List.append_nil]
    by_cases hdc : d = c
    · subst hdc
      rw [Function.update_self]
      cases hstatus : w.status d with
      | ended r' => exact absurd hstatus (hc r')
      | idle => simpa [hstatus] using hd
      | running failed trace' rest => simpa [hstatus] using hd
    · rw [Function.update_of_ne hdc]
      exact hd
  cases i with
  | lapse k =>
      simp only [Optimistic.step]
      split
      all_goals
        rw [Option.toList_none, List.append_nil]
        exact hlog
  | client c =>
      simp only [Optimistic.step]
      rcases clientStep_cases hsys hinv hseen (hfresh c rfl) c with
        hstep | ⟨hc, ⟨failed, trace, rest, -, hstep⟩ | ⟨failed, trace, a, -, -, hstep⟩⟩
      · rw [hstep]
        simpa using hlog
      · rw [hstep]
        rcases enter_cases w c failed trace rest with ⟨e, -, henter⟩ | henter
        · rw [henter]
          exact hfinish w c trace (.error e) rfl hc
        · rw [henter]
          exact hquiet _ c failed trace rest rfl hc
      · rw [hstep]
        exact hfinish (w.write (sys.writes a now)) c trace (.ok a) rfl hc

omit [DecidableEq K] in
theorem Logged.init (value : K → V) :
    Logged ({ value := value } : World C K V ε α) [] := fun _ => rfl

end Steps

end SwarmAuth.Optimistic
