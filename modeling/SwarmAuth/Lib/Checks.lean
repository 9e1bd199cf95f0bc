import Mathlib.Data.List.Basic
import Mathlib.Tactic.Common

/-!
# Checks that raise

A function that makes its checks one after another and raises at the first that fails,
in the `Except` monad. It returns exactly when every check passes; the lemmas turn a
returned value into that conjunction.

## Main definitions

* `raiseIf` — one check.
* `raiseIf_bind_eq_ok`, `forM_bind_eq_ok` — when a sequence of checks returns.
-/
namespace SwarmAuth
variable {ε α β : Type}

/-- Raise `e` when `c` holds. -/
def raiseIf (c : Prop) [Decidable c] (e : ε) : Except ε Unit := if c then .error e else .ok ()

/-- The value, or the exception when there is none. -/
def orRaise (a : Option α) (e : ε) : Except ε α :=
  match a with
  | some a => .ok a
  | none => .error e

theorem bind_eq_ok {x : Except ε α} {f : α → Except ε β} {b : β} :
    (x >>= f) = .ok b ↔ ∃ a, x = .ok a ∧ f a = .ok b := by
  cases x <;> simp [bind, Except.bind]

@[simp] theorem raiseIf_eq_ok {c : Prop} [Decidable c] {e : ε} {u : Unit} :
    raiseIf c e = .ok u ↔ ¬ c := by
  unfold raiseIf
  split_ifs with h <;> simp [h]

/-- A check followed by the rest returns when the check passes and the rest returns. -/
@[simp] theorem raiseIf_bind_eq_ok {c : Prop} [Decidable c] {e : ε} {f : Unit → Except ε β} {b : β} :
    (raiseIf c e >>= f) = .ok b ↔ ¬ c ∧ f () = .ok b := by
  rw [bind_eq_ok]
  constructor
  · rintro ⟨⟨⟩, hc, hf⟩
    exact ⟨raiseIf_eq_ok.mp hc, hf⟩
  · rintro ⟨hc, hf⟩
    exact ⟨(), raiseIf_eq_ok.mpr hc, hf⟩

@[simp] theorem map_raiseIf_eq_ok {c : Prop} [Decidable c] {e : ε} {f : Unit → β} {b : β} :
    (f <$> raiseIf c e) = .ok b ↔ ¬ c ∧ f () = b := by
  unfold raiseIf
  split_ifs with h <;> simp [h, Functor.map, Except.map]

@[simp] theorem orRaise_eq_ok {o : Option α} {e : ε} {a : α} : orRaise o e = .ok a ↔ o = some a := by
  cases o <;> simp [orRaise]

@[simp] theorem error_ne_ok {e : ε} {a : α} : (Except.error e : Except ε α) ≠ .ok a := nofun

@[simp] theorem throw_ne_ok {e : ε} {a : α} : (throw e : Except ε α) ≠ .ok a := nofun

@[simp] theorem pure_eq_ok {a b : α} : (pure a : Except ε α) = .ok b ↔ a = b := by
  simp [pure, Except.pure]

/-- A check made on every element passes when it passes on each. -/
theorem forM_eq_ok {l : List α} {f : α → Except ε Unit} {u : Unit} :
    forM l f = .ok u ↔ ∀ a ∈ l, f a = .ok () := by
  induction l with
  | nil => simp
  | cons a l ih =>
      rw [List.forM_cons, bind_eq_ok, List.forall_mem_cons]
      constructor
      · rintro ⟨⟨⟩, ha, hl⟩
        exact ⟨ha, ih.mp hl⟩
      · rintro ⟨ha, hl⟩
        exact ⟨(), ha, ih.mpr hl⟩

/-- A check on every element, followed by the rest. -/
theorem forM_bind_eq_ok {l : List α} {f : α → Except ε Unit} {g : Unit → Except ε β} {b : β} :
    (forM l f >>= g) = .ok b ↔ (∀ a ∈ l, f a = .ok ()) ∧ g () = .ok b := by
  rw [bind_eq_ok]
  constructor
  · rintro ⟨⟨⟩, hl, hg⟩
    exact ⟨forM_eq_ok.mp hl, hg⟩
  · rintro ⟨hl, hg⟩
    exact ⟨(), forM_eq_ok.mpr hl, hg⟩

/-- A checked map returns the images when every check passes. -/
theorem mapM_eq_ok {f : α → Except ε β} {P : α → Prop} {g : α → β} {l : List α} {out : List β}
    (h : ∀ a ∈ l, ∀ b, f a = .ok b ↔ P a ∧ b = g a) :
    l.mapM f = .ok out ↔ (∀ a ∈ l, P a) ∧ out = l.map g := by
  induction l generalizing out with
  | nil =>
      rw [List.mapM_nil, pure_eq_ok]
      simp only [List.not_mem_nil, false_imp_iff, implies_true, true_and, List.map_nil]
      exact eq_comm
  | cons a l ih =>
      have hl : ∀ out, l.mapM f = .ok out ↔ (∀ a ∈ l, P a) ∧ out = l.map g :=
        fun _ => ih fun b hb => h b (List.mem_cons_of_mem a hb)
      rw [List.mapM_cons, bind_eq_ok, List.forall_mem_cons, List.map_cons]
      constructor
      · intro hok
        obtain ⟨b, hb, hok⟩ := hok
        obtain ⟨bs, hbs, hok⟩ := bind_eq_ok.mp hok
        obtain ⟨ha, rfl⟩ := (h a List.mem_cons_self b).mp hb
        obtain ⟨hall, rfl⟩ := (hl bs).mp hbs
        exact ⟨⟨ha, hall⟩, (pure_eq_ok.mp hok).symm⟩
      · intro hok
        obtain ⟨⟨ha, hall⟩, rfl⟩ := hok
        have hb := (h a List.mem_cons_self (g a)).mpr ⟨ha, rfl⟩
        have hbs := (hl (l.map g)).mpr ⟨hall, rfl⟩
        exact ⟨g a, hb, bind_eq_ok.mpr ⟨l.map g, hbs, rfl⟩⟩

end SwarmAuth
