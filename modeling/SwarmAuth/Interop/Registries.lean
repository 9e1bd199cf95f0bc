import SwarmAuth.Interop.Verify
import SwarmAuth.Python.Registry
import SwarmAuth.TypeScript.Verify

/-!
# Registries in four languages

The `KeyRegistry` of Python, Node and TypeScript and the `Registry` of Go are changed by the
same calls. Python and Node replace the keys of an issuer they do not know, whether or not it
rotates; Go has one method for root and holder keys, refuses what is no key, and keeps an
entry without keys. A map's missing entry is here the empty list, which none of the sources
tells from an entry without keys.

## Main definitions

* `Node.KeyRegistry.apply`, `TypeScript.KeyRegistry.apply`, `Go.Registry.apply` — one call.
* `Alike` — the four trust the same keys, in the same order.
* `registries_agree` — **they do after any calls**.
-/
namespace SwarmAuth

/-! ## Node -/

namespace Node.KeyRegistry

/-- The keys other than this one. -/
def others (keys : List Bytes) (publicKey : Bytes) : List Bytes := keys.filter (· ≠ publicKey)

/-- A new registry. -/
def new : KeyRegistry := ⟨fun _ => [], fun _ => []⟩

/-- `register`. -/
def register (reg : KeyRegistry) (iss : Units) (publicKey : Bytes) (rotate : Bool) : KeyRegistry :=
  let existing := reg.roots iss
  if rotate ∧ existing ≠ [] then
    { reg with roots := Function.update reg.roots iss (publicKey :: others existing publicKey) }
  else { reg with roots := Function.update reg.roots iss [publicKey] }

/-- `registerHolder`. -/
def registerHolder (reg : KeyRegistry) (iss : Units) (publicKey : Bytes) : KeyRegistry :=
  { reg with holders :=
      Function.update reg.holders iss (publicKey :: others (reg.holders iss) publicKey) }

/-- `revoke`. -/
def revoke (reg : KeyRegistry) (iss : Units) (publicKey : Bytes) : KeyRegistry :=
  { reg with roots := Function.update reg.roots iss (others (reg.roots iss) publicKey) }

/-- `revokeHolder`. -/
def revokeHolder (reg : KeyRegistry) (iss : Units) (publicKey : Bytes) : KeyRegistry :=
  { reg with holders := Function.update reg.holders iss (others (reg.holders iss) publicKey) }

/-- `revokeIssuer`. -/
def revokeIssuer (reg : KeyRegistry) (iss : Units) : KeyRegistry :=
  ⟨Function.update reg.roots iss [], Function.update reg.holders iss []⟩

/-- One call. -/
def apply (reg : KeyRegistry) : Python.RegistryCall → KeyRegistry
  | .register iss publicKey rotate => reg.register iss publicKey rotate
  | .revoke iss publicKey => reg.revoke iss publicKey
  | .revokeIssuer iss => reg.revokeIssuer iss
  | .registerHolder iss publicKey => reg.registerHolder iss publicKey
  | .revokeHolder iss publicKey => reg.revokeHolder iss publicKey

end Node.KeyRegistry

/-! ## TypeScript -/

namespace TypeScript.KeyRegistry

/-- The keys that are not the `sameKey`. -/
def others (keys : List Bytes) (key : Bytes) : List Bytes := keys.filter (· ≠ key)

/-- A new registry. -/
def new : KeyRegistry := ⟨fun _ => [], fun _ => []⟩

/-- `register`. -/
def register (reg : KeyRegistry) (iss : Units) (key : Bytes) (rotate : Bool) : KeyRegistry :=
  let previous := if rotate then reg.roots iss else []
  { reg with roots := Function.update reg.roots iss (key :: others previous key) }

/-- `registerHolder`. -/
def registerHolder (reg : KeyRegistry) (iss : Units) (key : Bytes) : KeyRegistry :=
  { reg with holders := Function.update reg.holders iss (key :: others (reg.holders iss) key) }

/-- `remove`. -/
def remove (map : Units → List Bytes) (iss : Units) (key : Bytes) : Units → List Bytes :=
  Function.update map iss (others (map iss) key)

/-- `revokeIssuer`. -/
def revokeIssuer (reg : KeyRegistry) (iss : Units) : KeyRegistry :=
  ⟨Function.update reg.roots iss [], Function.update reg.holders iss []⟩

/-- One call. -/
def apply (reg : KeyRegistry) : Python.RegistryCall → KeyRegistry
  | .register iss key rotate => reg.register iss key rotate
  | .revoke iss key => { reg with roots := remove reg.roots iss key }
  | .revokeIssuer iss => reg.revokeIssuer iss
  | .registerHolder iss key => reg.registerHolder iss key
  | .revokeHolder iss key => { reg with holders := remove reg.holders iss key }

end TypeScript.KeyRegistry

/-! ## Go -/

namespace Go.Registry

/-- `NewRegistry`. -/
def new : Registry := ⟨fun _ => [], fun _ => []⟩

/-- The map of root or of holder keys. -/
def target (r : Registry) (holder : Bool) : Bytes → List Bytes := if holder then r.holders else r.roots

/-- The registry with an entry of one of its maps set. -/
def set (r : Registry) (holder : Bool) (issuer : Bytes) (keys : List Bytes) : Registry :=
  if holder then { r with holders := Function.update r.holders issuer keys }
  else { r with roots := Function.update r.roots issuer keys }

/-- `Register`; none is its error. -/
def register (r : Registry) (issuer key : Bytes) (holder rotate : Bool) : Option Registry :=
  if issuer = [] ∨ key.length ≠ 32 then none
  else
    let kept := if rotate then (r.target holder issuer).filter (· ≠ key) else []
    some (r.set holder issuer (key :: kept))

/-- `Revoke`. -/
def revoke (r : Registry) (issuer key : Bytes) (holder : Bool) : Registry :=
  r.set holder issuer ((r.target holder issuer).filter (· ≠ key))

/-- `RevokeIssuer`. -/
def revokeIssuer (r : Registry) (issuer : Bytes) : Registry :=
  ⟨Function.update r.roots issuer [], Function.update r.holders issuer []⟩

/-- One call; holder keys are registered with `rotate`, as the others' `registerHolder` does. -/
def apply (r : Registry) : Python.RegistryCall → Option Registry
  | .register iss key rotate => r.register (octets iss) key false rotate
  | .revoke iss key => some (r.revoke (octets iss) key false)
  | .revokeIssuer iss => some (r.revokeIssuer (octets iss))
  | .registerHolder iss key => r.register (octets iss) key true true
  | .revokeHolder iss key => some (r.revoke (octets iss) key true)

end Go.Registry

/-! ## The same calls -/

namespace Interop

open Python (RegistryCall Registry registryAfter)

/-- The call names an issuer and an Ed25519 key. -/
def Registers : RegistryCall → Prop
  | .register iss key _ | .registerHolder iss key => iss ≠ [] ∧ key.length = 32
  | _ => True

/-- The four trust the same keys of every issuer, in the same order. -/
structure Alike (p : Registry) (n : Node.KeyRegistry) (t : TypeScript.KeyRegistry) (g : Go.Registry) :
    Prop where
  roots : ∀ iss, n.roots iss = (p.keys iss).getD [] ∧ t.roots iss = (p.keys iss).getD [] ∧
    g.roots (octets iss) = (p.keys iss).getD []
  holders : ∀ iss, n.holders iss = (p.holders iss).getD [] ∧ t.holders iss = (p.holders iss).getD [] ∧
    g.holders (octets iss) = (p.holders iss).getD []

/-- What one entry of the four maps holds. -/
def Entry (p : Option (List Bytes)) (n t g : List Bytes) : Prop :=
  n = p.getD [] ∧ t = p.getD [] ∧ g = p.getD []

/-- Setting one entry of the four maps. -/
theorem entries_update {p : Units → Option (List Bytes)} {n t : Units → List Bytes}
    {g : Bytes → List Bytes} {iss : Units} {p' : Option (List Bytes)} {n' t' g' : List Bytes}
    (h : ∀ i, Entry (p i) (n i) (t i) (g (octets i))) (h' : Entry p' n' t' g') :
    ∀ i, Entry (Function.update p iss p' i) (Function.update n iss n' i) (Function.update t iss t' i)
      (Function.update g (octets iss) g' (octets i)) := by
  intro i
  by_cases hi : i = iss
  · subst hi
    simp only [Function.update_self]
    exact h'
  · have hoctets : octets i ≠ octets iss := fun heq => hi (octets_injective heq)
    simp only [Function.update_of_ne hi, Function.update_of_ne hoctets]
    exact h i

/-- An entry without one of its keys. -/
theorem entry_without {entries : Units → Option (List Bytes)} {iss : Units} {n t g : List Bytes}
    (h : Entry (entries iss) n t g) (key : Bytes) :
    Entry (if Python.otherKeys entries iss key = [] then none else some (Python.otherKeys entries iss key))
      (n.filter (· ≠ key)) (t.filter (· ≠ key)) (g.filter (· ≠ key)) := by
  obtain ⟨rfl, rfl, rfl⟩ := h
  have hget : (if Python.otherKeys entries iss key = [] then none
      else some (Python.otherKeys entries iss key)).getD [] = Python.otherKeys entries iss key := by
    by_cases hnone : Python.otherKeys entries iss key = []
    · rw [if_pos hnone, hnone, Option.getD_none]
    · rw [if_neg hnone, Option.getD_some]
  rw [Entry, hget, Python.otherKeys]
  exact ⟨rfl, rfl, rfl⟩

/-- An entry with a key before its others. -/
theorem entry_cons {entries : Units → Option (List Bytes)} {iss : Units} {n t g : List Bytes}
    (h : Entry (entries iss) n t g) (key : Bytes) :
    Entry (some (key :: Python.otherKeys entries iss key)) (key :: n.filter (· ≠ key))
      (key :: t.filter (· ≠ key)) (key :: g.filter (· ≠ key)) := by
  obtain ⟨rfl, rfl, rfl⟩ := h
  rw [Entry, Option.getD_some, Python.otherKeys]
  exact ⟨rfl, rfl, rfl⟩

/-- A first key is as a key before no others. -/
theorem python_register (p : Registry) (iss : Units) (key : Bytes) (rotate : Bool) :
    p.register iss key rotate = { p with
      keys := Function.update p.keys iss
        (some (key :: if rotate then Python.otherKeys p.keys iss key else [])) } := by
  cases rotate with
  | false => rfl
  | true =>
      cases hkeys : p.keys iss with
      | none => simp [Registry.register, hkeys, Python.otherKeys]
      | some keys => simp [Registry.register, hkeys]

theorem node_register (n : Node.KeyRegistry) (iss : Units) (key : Bytes) (rotate : Bool) :
    n.register iss key rotate = { n with
      roots := Function.update n.roots iss
        (key :: if rotate then (n.roots iss).filter (· ≠ key) else []) } := by
  cases rotate with
  | false => rfl
  | true =>
      by_cases hkeys : n.roots iss = []
      · simp [Node.KeyRegistry.register, hkeys]
      · simp [Node.KeyRegistry.register, hkeys, Node.KeyRegistry.others]

theorem typescript_register (t : TypeScript.KeyRegistry) (iss : Units) (key : Bytes) (rotate : Bool) :
    t.register iss key rotate = { t with
      roots := Function.update t.roots iss
        (key :: if rotate then (t.roots iss).filter (· ≠ key) else []) } := by
  cases rotate with
  | false => rfl
  | true => rfl

theorem go_register (g : Go.Registry) {iss : Units} {key : Bytes} (holder rotate : Bool)
    (hiss : iss ≠ []) (hkey : key.length = 32) :
    g.register (octets iss) key holder rotate = some (g.set holder (octets iss)
      (key :: if rotate then (g.target holder (octets iss)).filter (· ≠ key) else [])) := by
  have hissuer : octets iss ≠ [] := fun heq => hiss (octets_injective (heq.trans rfl))
  rw [Go.Registry.register, if_neg]
  simp only [hissuer, hkey, ne_eq, not_true_eq_false, or_self, not_false_eq_true]

section Calls
variable {p : Registry} {n : Node.KeyRegistry} {t : TypeScript.KeyRegistry} {g : Go.Registry}

/-- **One call keeps the four alike.** -/
theorem Alike.apply (h : Alike p n t g) {call : RegistryCall} (hcall : Registers call) :
    ∃ g', g.apply call = some g' ∧ Alike (p.apply call) (n.apply call) (t.apply call) g' := by
  cases call with
  | register iss key rotate =>
      refine ⟨_, go_register g false rotate hcall.1 hcall.2, ?_⟩
      simp only [Registry.apply, Node.KeyRegistry.apply, TypeScript.KeyRegistry.apply,
        python_register, node_register, typescript_register]
      refine ⟨entries_update h.roots ?_, h.holders⟩
      cases rotate with
      | false => exact ⟨rfl, rfl, rfl⟩
      | true => exact entry_cons (h.roots iss) key
  | revoke iss key =>
      exact ⟨_, rfl, entries_update h.roots (entry_without (h.roots iss) key), h.holders⟩
  | revokeIssuer iss =>
      exact ⟨_, rfl, entries_update h.roots ⟨rfl, rfl, rfl⟩, entries_update h.holders ⟨rfl, rfl, rfl⟩⟩
  | registerHolder iss key =>
      exact ⟨_, go_register g true true hcall.1 hcall.2, h.roots,
        entries_update h.holders (entry_cons (h.holders iss) key)⟩
  | revokeHolder iss key =>
      exact ⟨_, rfl, h.roots, entries_update h.holders (entry_without (h.holders iss) key)⟩

/-- Any more calls keep the four alike. -/
theorem Alike.foldl (h : Alike p n t g) (calls : List RegistryCall)
    (hcalls : ∀ call ∈ calls, Registers call) :
    ∃ g', calls.foldlM Go.Registry.apply g = some g' ∧ Alike (calls.foldl Registry.apply p)
      (calls.foldl Node.KeyRegistry.apply n) (calls.foldl TypeScript.KeyRegistry.apply t) g' := by
  induction calls generalizing p n t g with
  | nil => exact ⟨g, rfl, h⟩
  | cons call calls ih =>
      obtain ⟨hcall, hrest⟩ := List.forall_mem_cons.mp hcalls
      obtain ⟨g', hg', hstep⟩ := h.apply hcall
      obtain ⟨g'', hg'', hrun⟩ := ih hstep hrest
      refine ⟨g'', ?_, hrun⟩
      rw [List.foldlM_cons, hg', Option.bind_eq_bind, Option.bind_some, hg'']

/-- Registries that are alike are the same to the verifiers. -/
theorem Alike.sameRegistry (h : Alike p n t g) : SameRegistry p.toKeyRegistry n g where
  roots iss b hb key := by
    obtain ⟨hn, -, hg⟩ := h.roots iss
    rw [hb.2, hn, hg]
    exact ⟨Iff.rfl, Iff.rfl⟩
  holders iss b hb key := by
    obtain ⟨hn, -, hg⟩ := h.holders iss
    rw [hb.2, hn, hg]
    exact ⟨Iff.rfl, Iff.rfl⟩

/-- **After any calls the four registries trust the same keys**, in the same order, and the
verifiers are given the same registry. -/
theorem registries_agree (calls : List RegistryCall) (hcalls : ∀ call ∈ calls, Registers call) :
    ∃ g, calls.foldlM Go.Registry.apply Go.Registry.new = some g ∧
      Alike (registryAfter calls) (calls.foldl Node.KeyRegistry.apply Node.KeyRegistry.new)
        (calls.foldl TypeScript.KeyRegistry.apply TypeScript.KeyRegistry.new) g ∧
      SameRegistry (registryAfter calls).toKeyRegistry
        (calls.foldl Node.KeyRegistry.apply Node.KeyRegistry.new) g := by
  have hnew : Alike Registry.new Node.KeyRegistry.new TypeScript.KeyRegistry.new Go.Registry.new :=
    ⟨fun _ => ⟨rfl, rfl, rfl⟩, fun _ => ⟨rfl, rfl, rfl⟩⟩
  obtain ⟨g, hg, hrun⟩ := hnew.foldl calls hcalls
  exact ⟨g, hg, hrun, hrun.sameRegistry⟩

/-- A key is replaced, another rotated in, the first of them revoked, and a holder registered. -/
def sampleRegistrations : List RegistryCall :=
  [.register (lit "agent") (List.replicate 32 1) false, .register (lit "agent") (List.replicate 32 2) false,
    .register (lit "agent") (List.replicate 32 3) true, .revoke (lit "agent") (List.replicate 32 2),
    .registerHolder (lit "bob") (List.replicate 32 4)]

theorem registries_agree_sample : ∃ g : Go.Registry,
    sampleRegistrations.foldlM Go.Registry.apply Go.Registry.new = some g ∧
      g.roots (octets (lit "agent")) = [List.replicate 32 3] := by
  have hcalls : ∀ call ∈ sampleRegistrations, Registers call := by
    intro call hcall
    simp only [sampleRegistrations, List.mem_cons, List.not_mem_nil, or_false] at hcall
    rcases hcall with rfl | rfl | rfl | rfl | rfl
    · exact ⟨by decide, rfl⟩
    · exact ⟨by decide, rfl⟩
    · exact ⟨by decide, rfl⟩
    · trivial
    · exact ⟨by decide, rfl⟩
  obtain ⟨g, hg, halike, -⟩ := registries_agree sampleRegistrations hcalls
  refine ⟨g, hg, (halike.roots (lit "agent")).2.2.trans ?_⟩
  decide +kernel

end Calls
end Interop
end SwarmAuth
