import SwarmAuth.Lib.Recency
import SwarmAuth.Python.Verify

/-!
# Key registry

`KeyRegistry` over its lifetime: two dicts of key lists, one of root keys and one of
holder keys, changed by registration, rotation and revocation. Its purpose is two trust
sets for each agent, in which a key that is registered again becomes the most recent one.

## Main definitions

* `Registry`, `Registry.apply`, `registryAfter` — the dicts, one call, any calls.
* `TrustSets`, `trustAfter` — the trust sets the calls are to keep.
* `Registry.Holds` — the dicts present the trust sets.
* `registry_answers` — what the registry answers after any calls.
* `verifyKidAndSignature_after` — which signatures are accepted after them.
-/
namespace SwarmAuth.Python
open Recency

/-! ## The registry -/

/-- `_keys` and `_holders`. -/
structure Registry where
  keys : Units → Option (List Bytes)
  holders : Units → Option (List Bytes)

/-- A new registry. -/
def Registry.new : Registry := ⟨fun _ => none, fun _ => none⟩

/-- The keys of the dict's entry for `iss` other than `publicKey`. -/
def otherKeys (entries : Units → Option (List Bytes)) (iss : Units) (publicKey : Bytes) :
    List Bytes := ((entries iss).getD []).filter (· ≠ publicKey)

/-- Set the dict's entry for `iss` to its other keys; drop it when there are none. -/
def withoutKey (entries : Units → Option (List Bytes)) (iss : Units) (publicKey : Bytes) :
    Units → Option (List Bytes) :=
  let remaining := otherKeys entries iss publicKey
  Function.update entries iss (if remaining = [] then none else some remaining)

/-- `register`. -/
def Registry.register (reg : Registry) (iss : Units) (publicKey : Bytes) (rotate : Bool) :
    Registry :=
  if rotate ∧ (reg.keys iss).isSome then
    let existing := otherKeys reg.keys iss publicKey
    { reg with keys := Function.update reg.keys iss (some (publicKey :: existing)) }
  else { reg with keys := Function.update reg.keys iss (some [publicKey]) }

/-- `revoke`. -/
def Registry.revoke (reg : Registry) (iss : Units) (publicKey : Bytes) : Registry :=
  { reg with keys := withoutKey reg.keys iss publicKey }

/-- `revoke_issuer`. -/
def Registry.revokeIssuer (reg : Registry) (iss : Units) : Registry :=
  { keys := Function.update reg.keys iss none, holders := Function.update reg.holders iss none }

/-- `register_holder`. -/
def Registry.registerHolder (reg : Registry) (iss : Units) (publicKey : Bytes) : Registry :=
  let existing := otherKeys reg.holders iss publicKey
  { reg with holders := Function.update reg.holders iss (some (publicKey :: existing)) }

/-- `revoke_holder`. -/
def Registry.revokeHolder (reg : Registry) (iss : Units) (publicKey : Bytes) : Registry :=
  { reg with holders := withoutKey reg.holders iss publicKey }

/-- What verification reads of a registry. -/
def Registry.toKeyRegistry (reg : Registry) : KeyRegistry where
  keys iss := (reg.keys iss).getD []
  holders iss := (reg.holders iss).getD []

/-- `keys_for`. -/
def Registry.keysFor (reg : Registry) (iss : Units) : Outcome (List Bytes) :=
  reg.toKeyRegistry.keysFor iss

/-- `holder_keys_for`. -/
def Registry.holderKeysFor (reg : Registry) (iss : Units) : Outcome (List Bytes) :=
  reg.toKeyRegistry.holderKeysFor iss

/-- A call that changes the registry. -/
inductive RegistryCall where
  | register (iss : Units) (publicKey : Bytes) (rotate : Bool)
  | revoke (iss : Units) (publicKey : Bytes)
  | revokeIssuer (iss : Units)
  | registerHolder (iss : Units) (publicKey : Bytes)
  | revokeHolder (iss : Units) (publicKey : Bytes)

namespace RegistryCall

/-- The agent the call names. -/
def iss : RegistryCall → Units
  | register iss _ _ | revoke iss _ | revokeIssuer iss | registerHolder iss _ | revokeHolder iss _ => iss

/-- A root operation other than `revoke_issuer`. -/
def OnRoots : RegistryCall → Prop
  | register .. | revoke .. => True
  | _ => False

/-- A holder operation. -/
def OnHolders : RegistryCall → Prop
  | registerHolder .. | revokeHolder .. => True
  | _ => False

end RegistryCall

/-- One call. -/
def Registry.apply (reg : Registry) : RegistryCall → Registry
  | .register iss publicKey rotate => reg.register iss publicKey rotate
  | .revoke iss publicKey => reg.revoke iss publicKey
  | .revokeIssuer iss => reg.revokeIssuer iss
  | .registerHolder iss publicKey => reg.registerHolder iss publicKey
  | .revokeHolder iss publicKey => reg.revokeHolder iss publicKey

/-- The registry after the calls. -/
def registryAfter (calls : List RegistryCall) : Registry := calls.foldl Registry.apply Registry.new

/-! ## The trust sets -/

/-- The root and holder keys each agent is trusted with, dated by the count of calls. -/
structure TrustSets where
  clock : ℕ
  roots : Units → Dated Bytes
  holders : Units → Dated Bytes

/-- Nobody is trusted. -/
def TrustSets.new : TrustSets := ⟨0, fun _ => Dated.empty, fun _ => Dated.empty⟩

/-- Registration replaces, rotation and holder registration add, revocation removes, and
`revokeIssuer` clears both sets. -/
def TrustSets.apply (s : TrustSets) : RegistryCall → TrustSets
  | .register iss key false =>
      { s with clock := s.clock + 1
               roots := Function.update s.roots iss (Dated.empty.add key s.clock) }
  | .register iss key true =>
      { s with clock := s.clock + 1
               roots := Function.update s.roots iss ((s.roots iss).add key s.clock) }
  | .revoke iss key =>
      { s with clock := s.clock + 1
               roots := Function.update s.roots iss ((s.roots iss).remove key) }
  | .revokeIssuer iss =>
      { clock := s.clock + 1
        roots := Function.update s.roots iss Dated.empty
        holders := Function.update s.holders iss Dated.empty }
  | .registerHolder iss key =>
      { s with clock := s.clock + 1
               holders := Function.update s.holders iss ((s.holders iss).add key s.clock) }
  | .revokeHolder iss key =>
      { s with clock := s.clock + 1
               holders := Function.update s.holders iss ((s.holders iss).remove key) }

/-- The trust sets after the calls. -/
def trustAfter (calls : List RegistryCall) : TrustSets :=
  calls.foldl TrustSets.apply TrustSets.new

/-! ## One dict -/

/-- A dict presents the sets: an entry is a non-empty list, and no entry is the set
without members. -/
structure Lists (entries : Units → Option (List Bytes)) (sets : Units → Dated Bytes)
    (now : ℕ) : Prop where
  presents : ∀ iss, Presents ((entries iss).getD []) (sets iss)
  nonempty : ∀ iss, entries iss ≠ some []
  before : ∀ iss, (sets iss).Before now

theorem lists_new (now : ℕ) : Lists (fun _ => none) (fun _ => Dated.empty) now :=
  ⟨fun _ => presents_nil, fun _ => by simp, fun _ => Dated.before_empty now⟩

/-- What holds of two functions at every point still holds after both change at one. -/
theorem update_related {A B : Type} {R : A → B → Prop} {f : Units → A} {g : Units → B} {a : A}
    {b : B} {iss : Units} (h : ∀ i, R (f i) (g i)) (hab : R a b) :
    ∀ i, R (Function.update f iss a i) (Function.update g iss b i) := by
  intro i
  by_cases hi : i = iss
  · subst hi
    rw [Function.update_self, Function.update_self]
    exact hab
  · rw [Function.update_of_ne hi, Function.update_of_ne hi]
    exact h i

section Entries
variable {entries : Units → Option (List Bytes)} {sets : Units → Dated Bytes} {now : ℕ}

theorem Lists.tick (h : Lists entries sets now) : Lists entries sets (now + 1) :=
  ⟨h.presents, h.nonempty, fun iss => (h.before iss).mono (Nat.le_succ now)⟩

/-- The entry of one agent changes. -/
theorem Lists.update (h : Lists entries sets now) (iss : Units) {entry : Option (List Bytes)}
    {set : Dated Bytes} (hpresents : Presents (entry.getD []) set) (hnonempty : entry ≠ some [])
    (hbefore : set.Before (now + 1)) :
    Lists (Function.update entries iss entry) (Function.update sets iss set) (now + 1) where
  presents := update_related (R := fun (e : Option (List Bytes)) s => Presents (e.getD []) s)
    h.presents hpresents
  nonempty := update_related (R := fun e _ => e ≠ some []) (g := sets) (b := set) h.nonempty hnonempty
  before := update_related (R := fun _ (s : Dated Bytes) => s.Before (now + 1)) (f := entries) (a := entry)
    h.tick.before hbefore

/-- The one trusted key. -/
theorem Lists.replace (h : Lists entries sets now) (iss : Units) (key : Bytes) :
    Lists (Function.update entries iss (some [key]))
      (Function.update sets iss (Dated.empty.add key now)) (now + 1) :=
  h.update iss (presents_singleton key now) (by simp) ((Dated.before_empty now).add key)

/-- The key ahead of the others. -/
theorem Lists.add (h : Lists entries sets now) (iss : Units) (key : Bytes) :
    Lists (Function.update entries iss (some (key :: otherKeys entries iss key)))
      (Function.update sets iss ((sets iss).add key now)) (now + 1) :=
  h.update iss ((h.presents iss).add (h.before iss) key) (by simp) ((h.before iss).add key)

/-- The others alone; the last key takes the entry with it. -/
theorem Lists.remove (h : Lists entries sets now) (iss : Units) (key : Bytes) :
    Lists (withoutKey entries iss key)
      (Function.update sets iss ((sets iss).remove key)) (now + 1) := by
  have hremaining := (h.presents iss).remove key
  have hbefore := ((h.before iss).remove key).mono (Nat.le_succ now)
  rw [withoutKey]
  by_cases hnil : otherKeys entries iss key = []
  · rw [if_pos hnil]
    rw [← otherKeys, hnil] at hremaining
    exact h.update iss hremaining (by simp) hbefore
  · rw [if_neg hnil]
    exact h.update iss hremaining (by simpa using hnil) hbefore

/-- The entry is dropped. -/
theorem Lists.clear (h : Lists entries sets now) (iss : Units) :
    Lists (Function.update entries iss none) (Function.update sets iss Dated.empty) (now + 1) :=
  h.update iss presents_nil (by simp) (Dated.before_empty _)

/-- Adding to the set without members is replacing. -/
theorem Lists.eq_empty (h : Lists entries sets now) {iss : Units} (hnone : entries iss = none) :
    sets iss = Dated.empty := by
  have hpresents := h.presents iss
  rw [hnone] at hpresents
  exact hpresents.eq_nil_iff.mp rfl

end Entries

/-! ## Runs -/

/-- The registry presents the trust sets. -/
structure Registry.Holds (reg : Registry) (s : TrustSets) : Prop where
  roots : Lists reg.keys s.roots s.clock
  holders : Lists reg.holders s.holders s.clock

theorem Registry.holds_new : Registry.new.Holds TrustSets.new := ⟨lists_new 0, lists_new 0⟩

/-- One call. -/
theorem Registry.Holds.apply {reg : Registry} {s : TrustSets} (h : reg.Holds s)
    (call : RegistryCall) : (reg.apply call).Holds (s.apply call) := by
  cases call with
  | register iss key rotate =>
      cases rotate with
      | false => exact ⟨h.roots.replace iss key, h.holders.tick⟩
      | true =>
          refine ⟨?_, ?_⟩
          · by_cases hentry : (reg.keys iss).isSome
            · simp only [Registry.apply, Registry.register, hentry, and_self, if_true]
              exact h.roots.add iss key
            · -- rotation of an agent without keys is a first registration
              simp only [Registry.apply, Registry.register, hentry, TrustSets.apply]
              rw [h.roots.eq_empty (by simpa using hentry)]
              exact h.roots.replace iss key
          · simp only [Registry.apply, Registry.register]
            split <;> exact h.holders.tick
  | revoke iss key => exact ⟨h.roots.remove iss key, h.holders.tick⟩
  | revokeIssuer iss => exact ⟨h.roots.clear iss, h.holders.clear iss⟩
  | registerHolder iss key => exact ⟨h.roots.tick, h.holders.add iss key⟩
  | revokeHolder iss key => exact ⟨h.roots.tick, h.holders.remove iss key⟩

/-- Any calls. -/
theorem holds_after (calls : List RegistryCall) :
    (registryAfter calls).Holds (trustAfter calls) := by
  suffices hrun : ∀ (reg : Registry) (s : TrustSets), reg.Holds s →
      (calls.foldl Registry.apply reg).Holds (calls.foldl TrustSets.apply s) from
    hrun _ _ Registry.holds_new
  induction calls with
  | nil => exact fun _ _ h => h
  | cons call calls ih => exact fun reg s h => ih _ _ (h.apply call)

/-! ## Answers -/

/-- An answer presents the set, and the set without members is an unknown issuer. -/
structure Answers (answer : Outcome (List Bytes)) (s : Dated Bytes) : Prop where
  unknown : (∃ message, answer = .error (.of .unknownIssuer message)) ↔ s = Dated.empty
  listed : s ≠ Dated.empty → ∃ keys, answer = .ok keys ∧ keys.Nodup ∧ Presents keys s

/-- The keys of one entry, or the error when there are none. -/
theorem answers_of_presents {keys : List Bytes} {s : Dated Bytes} (h : Presents keys s)
    (message : List Piece) :
    Answers (do raiseIf (keys = []) (.of .unknownIssuer message); return keys) s := by
  by_cases hnil : keys = []
  · have hempty := h.eq_nil_iff.mp hnil
    refine ⟨iff_of_true ⟨message, ?_⟩ hempty, fun hne => absurd hempty hne⟩
    rw [raiseIf, if_pos hnil]
    rfl
  · have hempty : s ≠ Dated.empty := fun heq => hnil (h.eq_nil_iff.mpr heq)
    rw [raiseIf, if_neg hnil]
    refine ⟨iff_of_false ?_ hempty, fun _ => ⟨keys, rfl, h.nodup, h⟩⟩
    rintro ⟨_, hraise⟩
    cases hraise

/-- A call keeps to its own agent, and but for `revoke_issuer` to its own kind of keys. -/
structure KeepsToItself (reg : Registry) (call : RegistryCall) : Prop where
  roots : call.OnRoots → (reg.apply call).holders = reg.holders
  holders : call.OnHolders → (reg.apply call).keys = reg.keys
  others : ∀ iss ≠ call.iss,
    (reg.apply call).keys iss = reg.keys iss ∧ (reg.apply call).holders iss = reg.holders iss

theorem keepsToItself (reg : Registry) (call : RegistryCall) : KeepsToItself reg call := by
  cases call with
  | register iss key rotate =>
      refine ⟨fun _ => ?_, fun h => h.elim, fun iss' hiss => ?_⟩
      · simp only [Registry.apply, Registry.register]
        split <;> rfl
      · simp only [Registry.apply, Registry.register]
        split
        · exact ⟨Function.update_of_ne hiss _ _, rfl⟩
        · exact ⟨Function.update_of_ne hiss _ _, rfl⟩
  | revoke iss key =>
      exact ⟨fun _ => rfl, fun h => h.elim, fun iss' hiss => ⟨Function.update_of_ne hiss _ _, rfl⟩⟩
  | revokeIssuer iss =>
      exact ⟨fun h => h.elim, fun h => h.elim, fun iss' hiss =>
        ⟨Function.update_of_ne hiss _ _, Function.update_of_ne hiss _ _⟩⟩
  | registerHolder iss key =>
      exact ⟨fun h => h.elim, fun _ => rfl, fun iss' hiss => ⟨rfl, Function.update_of_ne hiss _ _⟩⟩
  | revokeHolder iss key =>
      exact ⟨fun h => h.elim, fun _ => rfl, fun iss' hiss => ⟨rfl, Function.update_of_ne hiss _ _⟩⟩

/-- **The registry keeps its trust sets**: after any calls it answers with exactly the
trusted keys, most recent first, and a further call keeps to itself. -/
theorem registry_answers (calls : List RegistryCall) :
    (∀ iss, Answers ((registryAfter calls).keysFor iss) ((trustAfter calls).roots iss) ∧
      Answers ((registryAfter calls).holderKeysFor iss) ((trustAfter calls).holders iss)) ∧
    ∀ call, KeepsToItself (registryAfter calls) call := by
  have h := holds_after calls
  refine ⟨fun iss => ⟨?_, ?_⟩, keepsToItself _⟩
  · exact answers_of_presents (h.roots.presents iss) _
  · exact answers_of_presents (h.holders.presents iss) _

/-- A signature is accepted under a key of the trust sets, and under no other. -/
theorem verifyKidAndSignature_after {ed : SignatureCheck} {o : VerifyOptions}
    {calls : List RegistryCall} (ho : o.keyRegistry = some (registryAfter calls).toKeyRegistry)
    {token : Units} {r : Parsed} {holder : Bool} :
    verifyKidAndSignature ed o r (signatureOf token) holder = .ok () ↔
      ∃ key t, (if holder then (trustAfter calls).holders else (trustAfter calls).roots)
          r.claims.iss key = some t ∧
        NamesKey r.header key ∧ ed key r.signingInput (signatureOf token) = true := by
  have h := holds_after calls
  have hmem : ∀ key, key ∈ (if holder then (registryAfter calls).toKeyRegistry.holders r.claims.iss
      else (registryAfter calls).toKeyRegistry.keys r.claims.iss) ↔
        ∃ t, (if holder then (trustAfter calls).holders else (trustAfter calls).roots)
          r.claims.iss key = some t := by
    intro key
    cases holder with
    | false => exact (h.roots.presents r.claims.iss).members key
    | true => exact (h.holders.presents r.claims.iss).members key
  rw [verifyKidAndSignature_ok ho]
  constructor
  · rintro ⟨key, hkey, hname, hed⟩
    obtain ⟨t, ht⟩ := (hmem key).mp hkey
    exact ⟨key, t, ht, hname, hed⟩
  · rintro ⟨key, t, ht, hname, hed⟩
    exact ⟨key, (hmem key).mpr ⟨t, ht⟩, hname, hed⟩

/-- A key that is registered again moves to the front; the last revocation forgets the
agent. -/
example :
    let calls := [.register [1] [7] false, .register [1] [8] true, .register [1] [7] true]
    ((registryAfter calls).keys [1] = some [[7], [8]]) ∧
      (registryAfter (calls ++ [.revoke [1] [7], .revoke [1] [8]])).keys [1] = none := by
  decide

end SwarmAuth.Python
