import SwarmAuth.Python.ApprovalRuns
import SwarmAuth.Python.Asyncio

/-!
# What binds a token to an approval

`authorize` compares the current resource, revision and digest with the approval, and hands
them to `verify_and_check` as parameters. There only the parameters that the token pins are
compared: a token that `issue` made pins all four, another token of the same audience and
capability spends the approval without naming it.

## Main definitions

* `BoundTo`, `NamesPins` — the token pins the approval's values, or some value for each.
* `VerifiedBy`, `Knows` — the verification behind each phase of a call.
* `spends_bound_iff` — a returned token is bound exactly when it names the four pins.
-/
namespace SwarmAuth.Python.Approvals

variable {C σ : Type}

/-! ## Bound tokens -/

/-- The token's own pins hold the approval's values. -/
def BoundTo (a : Approval) (claims : CapabilityClaims) : Prop :=
  ∀ m ∈ a.pins, claims.constraints.allowedParams.get? m.1 = some m.2

/-- The token pins the four parameters, to whatever values. -/
def NamesPins (claims : CapabilityClaims) : Prop :=
  ∀ name ∈ [lit "approval_id", lit "resource_id", lit "revision", lit "request_digest"],
    claims.constraints.allowedParams.has name = true

/-- The verification of an authorized token against an approval. -/
def VerifiedBy (s : Service C σ) (r : AuthorizeCall σ) (a : Approval) (claims : CapabilityClaims) :
    Prop := ∃ t t', r.verify s.ed s.sha256 a t = (.ok claims, t')

/-! ## What a verification establishes -/

theorem jsonValueEqual_str {t : Units} {v : Value} :
    jsonValueEqual (.str t) v = true ↔ v = .str t := by
  cases v <;> simp [jsonValueEqual, eq_comm]

/-- The parameters of an authorized call are the approval's pins. -/
theorem get?_pins {a : Approval} {m : Units × Value} (hm : m ∈ a.pins) :
    a.pins.get? m.1 = some m.2 ∧ ∃ t, m.2 = .str t := by
  simp only [Approval.pins, pinned, List.mem_cons, List.not_mem_nil, or_false] at hm
  rcases hm with rfl | rfl | rfl | rfl <;> exact ⟨rfl, _, rfl⟩

/-- **An authorized token matches the approval** in whatever it pins, and is bound to it
exactly when it names the four pins. -/
theorem bound_iff_names {s : Service C σ} {r : AuthorizeCall σ} {a : Approval}
    {claims : CapabilityClaims} (h : VerifiedBy s r a claims) :
    r.Matches s.sha256 a ∧ (∃ p, parse r.token = .ok p ∧ p.claims = claims) ∧
      (BoundTo a claims ↔ NamesPins claims) := by
  obtain ⟨t, t', hv⟩ := h
  have hm := AuthorizeCall.matches_of_verify hv
  refine ⟨hm, ?_⟩
  have hpins : pinned r.approvalId r.resourceId r.revision a.requestDigest = a.pins := by
    rw [Approval.pins, hm.1, hm.2.1, hm.2.2.1]
  simp only [AuthorizeCall.verify, hm.2.2.2, hpins, ne_eq, not_true_eq_false, if_false] at hv
  rcases Asyncio.verifyAndCheck_eq s.ed (some r.tracker) (r.inner a.pins) t with
    ⟨⟨e, he⟩, -⟩ | ⟨claims', amount, hverify, hcheck, hend⟩
  · rw [he] at hv
    exact absurd (congrArg Prod.fst hv) error_ne_ok
  have hclaims : claims' = claims := by
    have hret := (congrArg Prod.fst hend).symm.trans (congrArg Prod.fst hv)
    cases hres : Asyncio.reserved (some r.tracker) claims'
      (.scalar (.float (.finite false amount))) (r.inner a.pins).reserveTime t with
    | mk o t'' =>
        rw [hres] at hret
        cases o with
        | error e => exact absurd hret denied_ne_ok
        | ok u => exact Except.ok.inj hret
  subst hclaims
  obtain ⟨-, -, p, hp, hpc, -⟩ := verifyCore_ok.mp (verify_ok.mp hverify).2.1
  refine ⟨⟨p, hp, hpc⟩, ?_⟩
  have hparams : checkParams claims' a.pins = .ok () := by
    rw [checkCall, bind_eq_ok] at hcheck
    obtain ⟨-, -, hcheck⟩ := hcheck
    obtain ⟨-, hcheck⟩ := raiseIf_bind_eq_ok.mp hcheck
    obtain ⟨⟨⟩, hparams, -⟩ := bind_eq_ok.mp hcheck
    exact hparams
  rw [checkParams_ok] at hparams
  constructor
  · intro hbound name hname
    have hmem : ∃ m ∈ a.pins, m.1 = name := by
      simp only [List.mem_cons, List.not_mem_nil, or_false] at hname
      rcases hname with rfl | rfl | rfl | rfl <;> simp [Approval.pins, pinned]
    obtain ⟨m, hmem, rfl⟩ := hmem
    rw [Dict.has, hbound m hmem]
    rfl
  · intro hnames m hmem
    obtain ⟨hget, text, htext⟩ := get?_pins hmem
    have hname : m.1 ∈ [lit "approval_id", lit "resource_id", lit "revision",
        lit "request_digest"] := by
      simp only [Approval.pins, pinned, List.mem_cons, List.not_mem_nil, or_false] at hmem
      rcases hmem with rfl | rfl | rfl | rfl <;> simp
    obtain ⟨v, hv'⟩ := Option.isSome_iff_exists.mp (hnames m.1 hname)
    -- the token's value for the name was compared with the approval's
    obtain ⟨w, hw, heq⟩ := pins_iff.mp (hparams _ (Dict.mem_of_get? hv'))
    obtain rfl := Option.some.inj (hget.symm.trans hw)
    rw [htext] at heq
    have heq' : v = .str text := jsonValueEqual_str.mp heq
    rw [hv', heq', htext]

/-! ## Runs -/

/-- What a call of `authorize` has behind it in each phase. -/
def Knows (s : Service C σ) (h : List (Event C)) (c : C) (r : AuthorizeCall σ) : Phase → Prop
  | .verified a claims _ | .watching a claims _ _ _ | .read a claims _ _ _
  | .ready a claims _ _ _ _ => VerifiedBy s r a claims
  | .returned claims => ∃ a now, .authorized c a now ∈ h ∧ VerifiedBy s r a claims
  | _ => True

section Steps
variable {s : Service C σ} {w : World C σ} {h : List (Event C)} {c : C} {r : AuthorizeCall σ}

/-- A longer history knows as much. -/
theorem Knows.append {p : Phase} (hk : Knows s h c r p) (t : List (Event C)) :
    Knows s (h ++ t) c r p := by
  cases p with
  | returned claims =>
      obtain ⟨a, now, hmem, hv⟩ := hk
      exact ⟨a, now, List.mem_append_left t hmem, hv⟩
  | _ => exact hk

variable [DecidableEq C]

/-- A step of one client leaves the phases of the others. -/
theorem phase_step_of_ne {c' : C} (hne : c ≠ c') (now : ℚ) :
    (step s w (.client c' now)).2.phase c = w.phase c := by
  have hto : ∀ (w' : World C σ) (p : Phase), w'.phase = w.phase → (w'.to c' p).phase c =
      w.phase c := by
    intro w' p hw
    rw [← hw]
    exact Function.update_of_ne hne p w'.phase
  have hdelete : ∀ key, (w.delete key).phase = w.phase := phase_delete w
  rw [step]
  cases s.request c' with
  | approve r =>
      simp only [approveStep]
      split
      · split <;> exact hto _ _ rfl
      · split <;> exact hto _ _ rfl
      · split
        · split_ifs <;> exact hto _ _ rfl
        · exact hto _ _ rfl
        · rfl
      · rfl
  | invalidate resourceId =>
      simp only [invalidateStep]
      split
      · split
        · exact hto _ _ rfl
        · exact hto _ _ (hdelete _)
      · rfl
  | authorize r =>
      simp only [authorizeStep]
      split
      · split
        · exact hto _ _ rfl
        · split <;> exact hto _ _ rfl
      · exact hto _ _ rfl
      · split <;> exact hto _ _ rfl
      · split <;> exact hto _ _ rfl
      · split
        · exact hto _ _ rfl
        · split_ifs
          · exact hto _ _ rfl
          · exact hto _ _ (hdelete _)
        · exact hto _ _ rfl
      · exact hto _ _ rfl
      · split_ifs <;> exact hto _ _ rfl
      · split_ifs
        · exact hto _ _ (hdelete _)
        · exact hto _ _ rfl
      · rfl

/-- A step of the call knows what it verified. -/
theorem knows_authorizeStep (hk : Knows s h c r (w.phase c)) (now : ℚ) :
    Knows s (h ++ (authorizeStep s w c now r (w.phase c)).1.toList) c r
      ((authorizeStep s w c now r (w.phase c)).2.phase c) := by
  have hto : ∀ (w' : World C σ) (p : Phase), (w'.to c p).phase c = p := by
    intro w' p
    simp only [World.to, Function.update_self]
  cases hp : w.phase c with
  | start =>
      simp only [authorizeStep]
      split
      · simp only [hto, Knows]
      · split <;> simp only [hto, Knows]
  | got a =>
      simp only [authorizeStep, hto]
      split_ifs <;> trivial
  | unexpired a =>
      simp only [authorizeStep]
      split
      · simp only [hto, Knows]
      · simp only [hto]
        split_ifs <;> trivial
  | active a =>
      simp only [authorizeStep]
      split
      · simp only [hto, Knows]
      · next claims t hv =>
          simp only [hto, Knows]
          exact ⟨w.tracker, t, hv⟩
  | verified a claims failed =>
      rw [hp] at hk
      simp only [authorizeStep]
      split
      · simp only [hto, Knows]
      · split_ifs
        · simp only [hto, Knows]
        · simp only [hto, Knows, Option.toList_some]
          exact ⟨a, now, List.mem_append_right _ (List.mem_singleton_self _), hk⟩
      · simp only [hto]
        split_ifs
        · exact hk
        · trivial
  | watching a claims failed key version =>
      rw [hp] at hk
      simp only [authorizeStep, hto]
      split_ifs
      · exact hk
      · trivial
  | read a claims failed key version =>
      rw [hp] at hk
      simp only [authorizeStep]
      split_ifs
      · simp only [hto, Knows]
      · simp only [hto]
        exact hk
  | ready a claims failed key version readAt =>
      rw [hp] at hk
      simp only [authorizeStep]
      split_ifs
      · simp only [hto, Knows, Option.toList_some]
        exact ⟨a, readAt, List.mem_append_right _ (List.mem_singleton_self _), hk⟩
      · simp only [hto]
        exact hk
  | returned claims =>
      rw [hp] at hk
      simp only [authorizeStep, hp]
      exact hk.append _
  | checked a | timed a ttl | approved a | invalidated | raised e | refused =>
      simp only [authorizeStep, hp, Knows]

/-- Every step keeps what the calls of `authorize` know. -/
theorem knows_step (hr : s.request c = .authorize r) (hk : Knows s h c r (w.phase c))
    (action : Action C) : Knows s (h ++ (step s w action).1.toList) c r
      ((step s w action).2.phase c) := by
  cases action with
  | client c' now =>
      by_cases hc : c = c'
      · subst hc
        simp only [step, hr]
        exact knows_authorizeStep hk now
      · rw [phase_step_of_ne hc]
        exact hk.append _
  | lapseRecord key =>
      have hphase : (step s w (.lapseRecord key)).2.phase = w.phase := by
        simp only [step]
        split <;> rfl
      rw [hphase]
      exact hk.append _
  | lapseActive key =>
      have hphase : (step s w (.lapseActive key)).2.phase = w.phase := by
        simp only [step]
        split
        · rfl
        · exact phase_delete w key
      rw [hphase]
      exact hk.append _

end Steps

/-- **A token that spends an approval is bound to it exactly when it names the four pins**:
in every run, for every call of `authorize` that returned. -/
theorem spends_bound_iff [DecidableEq C] (s : Service C σ) (t : σ) (actions : List (Action C))
    (c : C) (r : AuthorizeCall σ) (claims : CapabilityClaims) (hr : s.request c = .authorize r)
    (hreturned : (Runs.final (step s) (start t) actions).phase c = .returned claims) :
    ∃ a now, .authorized c a now ∈ Runs.log (step s) (start t) actions ∧ r.Matches s.sha256 a ∧
      (∃ p, parse r.token = .ok p ∧ p.claims = claims) ∧
      (BoundTo a claims ↔ NamesPins claims) := by
  have hclock : (actions.map fun _ => (0 : ℚ)).Pairwise (· ≤ ·) := by simp
  have hinit : Knows s [] c r ((start t : World C σ).phase c) := trivial
  have hinv := Runs.log_invariant (fun _ w h => Knows s h c r (w.phase c))
    (fun _ _ _ action hk _ _ => knows_step hr hk action) (fun _ => hinit) actions
    (Runs.along_true (step s) (start t) actions) hclock
  rw [hreturned] at hinv
  obtain ⟨a, now, hmem, hv⟩ := hinv
  exact ⟨a, now, hmem, bound_iff_names hv⟩

/-! ### A token that pins nothing -/

/-- The claims that a call returned. -/
def Phase.claims? : Phase → Option CapabilityClaims
  | .returned claims => some claims
  | _ => none

theorem eq_returned_of_claims? {p : Phase} {claims : CapabilityClaims}
    (h : p.claims? = some claims) : p = .returned claims := by
  cases p with
  | returned claims' => rw [Option.some.inj h]
  | _ => exact nomatch h

/-- One approval in memory, and a call with a token for the same audience and capability that
`issue` did not make. -/
def unpinnedService : Service (Fin 2) UsageTracker.State where
  backend := .inMemory
  sha256 := sampleDigest
  ed := sampleCheck
  request
    | 0 => .approve ⟨"order-42", "v1", .obj [], 1010, "a1"⟩
    | 1 => .authorize (sampleAuthorize sampleClaims)

/-- The approval, then the call. -/
def unpinnedActions : List (Action (Fin 2)) :=
  [0, 0, 1, 1, 1, 1, 1].map fun c => .client c 1003

set_option maxRecDepth 100000 in
theorem returned_unpinned :
    (Runs.final (step unpinnedService) (start .empty) unpinnedActions).phase 1 =
      .returned sampleClaims := eq_returned_of_claims? (by decide +kernel)

set_option maxRecDepth 100000 in
/-- **A token without pins spends the approval.** -/
theorem unpinned_token_spends :
    (Runs.final (step unpinnedService) (start .empty) unpinnedActions).phase 1 =
        .returned sampleClaims ∧
      ∃ a now, .authorized 1 a now ∈ Runs.log (step unpinnedService) (start .empty)
        unpinnedActions ∧ ¬ BoundTo a sampleClaims := by
  refine ⟨returned_unpinned, ?_⟩
  have hlogged : (Runs.log (step unpinnedService) (start .empty) unpinnedActions).any (fun e =>
      match e with
      | .authorized c _ _ => c = 1
      | _ => false) = true := by decide +kernel
  rw [List.any_eq_true] at hlogged
  obtain ⟨e, hmem, he⟩ := hlogged
  cases e with
  | authorized c a now =>
      obtain rfl : c = 1 := of_decide_eq_true he
      refine ⟨a, now, hmem, fun hbound => ?_⟩
      exact nomatch hbound (lit "approval_id", .str a.id) List.mem_cons_self
  | _ => exact nomatch he

theorem spends_bound_iff_sample : ∃ a now, .authorized 1 a now ∈
      Runs.log (step unpinnedService) (start .empty) unpinnedActions ∧
    (sampleAuthorize sampleClaims).Matches sampleDigest a ∧
    (∃ p, parse (sampleAuthorize sampleClaims).token = .ok p ∧ p.claims = sampleClaims) ∧
    (BoundTo a sampleClaims ↔ NamesPins sampleClaims) :=
  spends_bound_iff unpinnedService .empty unpinnedActions 1 (sampleAuthorize sampleClaims)
    sampleClaims rfl returned_unpinned

end SwarmAuth.Python.Approvals
