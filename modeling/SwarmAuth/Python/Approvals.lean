import SwarmAuth.Python.Enforcement

/-!
# Approvals

`approvals.py`: an approval binds a decision to a resource, a revision and the digest of a
request, and is used up by the one call it authorizes. Calls of the service interleave step
by step; a step is one locked method of the in-memory store, one command or transaction in
Redis, one clock read, or a verification with its reservation.

## Main definitions

* `requestDigest`, `Approval`, `Backend` — the requests, the grants and the two stores.
* `World`, `Phase`, `step` — the store and every call's progress, and one step of a call.
* `Effect`, `step_effect` — what one step can do.
-/
namespace SwarmAuth.Python.Approvals

/-! ## Requests -/

/-- What `request_digest` admits: no floats, and integers of at most 53 bits. -/
def portable : Scalar → Bool
  | .int n => n.natAbs ≤ 2 ^ 53 - 1
  | .float _ => false
  | _ => true

/-- `request_digest`, over `sha256(text.encode()).hexdigest()`. -/
def requestDigest (sha256 : List ℕ → Units) (payload : Value) : Outcome Units :=
  if payload.allScalars portable then
    match dumps payload with
    | some encoded => .ok (sha256 (encoded.map UInt8.toNat))
    | none => .error tooLong
  else
    .error (.valueError [.text "Approval payload must contain JSON with safe integers and no floats"])

/-- `Approval`. -/
structure Approval where
  id : Units
  resourceId : Units
  revision : Units
  requestDigest : Units
  expiresAt : ℤ
  deriving DecidableEq

/-- The four values a call is held to. -/
def pinned (id resourceId revision digest : Units) : Dict :=
  [("approval_id", .str id), ("resource_id", .str resourceId), ("revision", .str revision),
    ("request_digest", .str digest)]

/-- `Approval.pins`. -/
def Approval.pins (a : Approval) : Dict := pinned a.id a.resourceId a.revision a.requestDigest

/-- A call of `approve`; `id` is what `generate_jti` gives it. -/
structure ApproveCall where
  resourceId : Units
  revision : Units
  payload : Value
  expiresAt : ℤ
  id : Units

/-- The approval of a call of `approve`, the clock at `now`. -/
def ApproveCall.approval (sha256 : List ℕ → Units) (r : ApproveCall) (now : ℚ) : Outcome Approval := do
  raiseIf (r.resourceId = [] ∨ r.revision = [])
    (.valueError [.text "Approval requires resource_id and revision"])
  raiseIf ((r.expiresAt : ℚ) ≤ now) (.valueError [.text "Approval must expire in the future"])
  let digest ← requestDigest sha256 r.payload
  return ⟨r.id, r.resourceId, r.revision, digest, r.expiresAt⟩

/-- A call of `authorize`, with the clock reads its token is judged at. -/
structure AuthorizeCall (σ : Type) where
  token : Units
  approvalId : Units
  resourceId : Units
  revision : Units
  payload : Value
  audience : Units
  capability : Units
  tracker : Tracker σ
  issuerPublicKey : Option Bytes := none
  keyRegistry : Option KeyRegistry := none
  revoked : Units → Bool := fun _ => false
  verifyTime : ℚ
  parentTime : ℚ
  reserveTime : ℚ

/-- `PolicyViolationError`. -/
def violation (message : String) : PyError := .of .policyViolation [.text message]

section Authorize
variable {σ : Type}

/-- The call of `verify_and_check` with the current values as parameters. -/
def AuthorizeCall.inner (r : AuthorizeCall σ) (current : Dict) : Call where
  token := r.token
  issuerPublicKey := r.issuerPublicKey
  keyRegistry := r.keyRegistry
  revoked := r.revoked
  audience := some r.audience
  requiredCapability := some r.capability
  params := some current
  verifyTime := r.verifyTime
  parentTime := r.parentTime
  reserveTime := r.reserveTime

/-- The comparison with an active approval, and the verification with its reservation. -/
def AuthorizeCall.verify (ed : SignatureCheck) (sha256 : List ℕ → Units) (r : AuthorizeCall σ)
    (a : Approval) (s : σ) : Outcome CapabilityClaims × σ :=
  match requestDigest sha256 r.payload with
  | .error e => (.error e, s)
  | .ok digest =>
      let current := pinned r.approvalId r.resourceId r.revision digest
      if current ≠ a.pins then (.error (violation "Approved request changed; obtain a new approval"), s)
      else verifyAndCheck ed (some r.tracker) (r.inner current) s

/-- The approval is for exactly what the call asks. -/
def AuthorizeCall.Matches (sha256 : List ℕ → Units) (r : AuthorizeCall σ) (a : Approval) : Prop :=
  a.id = r.approvalId ∧ a.resourceId = r.resourceId ∧ a.revision = r.revision ∧
    requestDigest sha256 r.payload = .ok a.requestDigest

/-- Only a matching approval is verified against. -/
theorem AuthorizeCall.matches_of_verify {ed : SignatureCheck} {sha256 : List ℕ → Units}
    {r : AuthorizeCall σ} {a : Approval} {s s' : σ} {claims : CapabilityClaims}
    (h : r.verify ed sha256 a s = (.ok claims, s')) : r.Matches sha256 a := by
  rw [AuthorizeCall.verify] at h
  cases hd : requestDigest sha256 r.payload with
  | error e => simp [hd] at h
  | ok digest =>
      simp only [hd] at h
      by_cases hp : pinned r.approvalId r.resourceId r.revision digest = a.pins
      · simp only [Approval.pins, pinned, List.cons.injEq, Prod.mk.injEq, Json.Tree.str.injEq,
          true_and, and_true] at hp
        obtain ⟨hid, hresource, hrevision, hdigest⟩ := hp
        exact ⟨hid.symm, hresource.symm, hrevision.symm, hd.trans (congrArg Except.ok hdigest)⟩
      · simp [if_pos hp] at h

end Authorize

/-! ## The stores -/

/-- `InMemoryApprovalStore`, or `RedisApprovalStore` with the seconds its server takes
after `EX`. -/
inductive Backend where
  | inMemory
  | redis (takes : ℤ → Bool)

/-- A call of one of the three methods. -/
inductive Request (σ : Type) where
  | approve (r : ApproveCall)
  | invalidate (resourceId : Units)
  | authorize (r : AuthorizeCall σ)

/-- Where a call stands. -/
inductive Phase where
  | start
  /-- The approval is made, then its time to live. -/
  | checked (a : Approval)
  | timed (a : Approval) (ttl : ℤ)
  /-- `_active`: the record is read, is unexpired, is the active one. -/
  | got (a : Approval)
  | unexpired (a : Approval)
  | active (a : Approval)
  /-- The token is verified; so many attempts to consume have failed. -/
  | verified (a : Approval) (claims : CapabilityClaims) (failed : ℕ)
  /-- In Redis: the key is watched since a version, its value is read, then the clock. -/
  | watching (a : Approval) (claims : CapabilityClaims) (failed : ℕ) (key : Units) (version : ℕ)
  | read (a : Approval) (claims : CapabilityClaims) (failed : ℕ) (key : Units) (version : ℕ)
  | ready (a : Approval) (claims : CapabilityClaims) (failed : ℕ) (key : Units) (version : ℕ)
      (now : ℚ)
  | approved (a : Approval)
  | invalidated
  | returned (claims : CapabilityClaims)
  | raised (e : PyError)
  /-- The server refused the transaction. -/
  | refused

/-- The call has returned or raised. -/
def Phase.ended : Phase → Bool
  | .approved _ | .invalidated | .returned _ | .raised _ | .refused => true
  | _ => false

/-- Calls on one service: its store, `sha256(text.encode()).hexdigest()`, and what each
client calls. -/
structure Service (C σ : Type) where
  backend : Backend
  sha256 : List ℕ → Units
  ed : SignatureCheck
  request : C → Request σ

/-- The two maps of the store, a count of the writes to each key of the second, which is
what `WATCH` looks at, the tracker's state, and every call's phase. -/
structure World (C σ : Type) where
  records : Units → Option Approval := fun _ => none
  active : Units → Option Units := fun _ => none
  version : Units → ℕ := fun _ => 0
  tracker : σ
  phase : C → Phase := fun _ => .start

/-- What the history of a store consists of. `clockRead` is the read of an attempt in Redis to
consume; in memory the lock holds from the read to the deletion. -/
inductive Event (C : Type) where
  | approved (client : C) (a : Approval)
  | invalidated (resourceId : Units)
  | clockRead (client : C) (now : ℚ)
  | authorized (client : C) (a : Approval) (now : ℚ)

/-- A step of one client, who reads the clock at `now` if at all, or a key in Redis lapses. -/
inductive Action (C : Type) where
  | client (c : C) (now : ℚ)
  | lapseRecord (key : Units)
  | lapseActive (key : Units)

variable {C σ : Type}

/-- The key of a text: itself, or in Redis the digest that follows the prefix and the kind. -/
def Service.key (s : Service C σ) (text : Units) : Outcome Units :=
  match s.backend with
  | .inMemory => .ok text
  | .redis _ =>
      if (codePoints text).any fun c => 0xD800 ≤ c && c < 0xE000 then
        .error (.valueError [.text "surrogates not allowed"])
      else .ok (s.sha256 (codePoints text))

/-- A key of the active map is written. -/
def World.write (w : World C σ) (key : Units) (value : Option Units) : World C σ :=
  { w with
    active := Function.update w.active key value
    version := Function.update w.version key (w.version key + 1) }

/-- A key of the active map goes. A key that is not there is not written. -/
def World.delete (w : World C σ) (key : Units) : World C σ :=
  if w.active key = none then w else w.write key none

/-- `InMemoryApprovalStore.put`. What has expired goes first, and what points to it. -/
def World.put (w : World C σ) (a : Approval) (now : ℚ) : World C σ :=
  let records := fun id => (w.records id).filter fun item => now < item.expiresAt
  { w with
    records := Function.update records a.id (some a)
    active := Function.update (fun key => (w.active key).filter fun id => (records id).isSome)
      a.resourceId (some a.id)
    version := fun key => w.version key + 1 }

/-- The two keys of an approval. Its record is JSON, which spells integers of at most 4300
digits. -/
def Service.keys (s : Service C σ) (a : Approval) : Outcome (Units × Units) := do
  let record ← s.key a.id
  raiseIf (writable (.int a.expiresAt) = false)
    tooLong
  let resource ← s.key a.resourceId
  return (record, resource)

/-- Nothing is new in the maps, and what changed was written. -/
structure Narrows (w w' : World C σ) : Prop where
  records : ∀ key a, w'.records key = some a → w.records key = some a
  active : ∀ key id, w'.active key = some id → w.active key = some id
  version : ∀ key, w.version key ≤ w'.version key
  unwritten : ∀ key, w'.version key = w.version key → w'.active key = w.active key

/-- One approval is new, active under one key. -/
structure Adds (w w' : World C σ) (a : Approval) (key : Units) : Prop where
  records : ∀ k b, w'.records k = some b → w.records k = some b ∨ b = a
  here : w'.active key = some a.id
  active : ∀ k id, k ≠ key → w'.active k = some id → w.active k = some id
  version : ∀ k, w.version k ≤ w'.version k
  unwritten : ∀ k, w'.version k = w.version k → w'.active k = w.active k

theorem Narrows.refl (w : World C σ) : Narrows w w :=
  ⟨fun _ _ h => h, fun _ _ h => h, fun _ => le_rfl, fun _ _ => rfl⟩

theorem delete_gone (w : World C σ) (key : Units) : (w.delete key).active key = none := by
  rw [World.delete]
  by_cases hnone : w.active key = none
  · rw [if_pos hnone]
    exact hnone
  · rw [if_neg hnone]
    exact Function.update_self key none w.active

theorem phase_delete (w : World C σ) (key : Units) : (w.delete key).phase = w.phase := by
  rw [World.delete]
  split <;> rfl

theorem version_write (w : World C σ) (key k : Units) (value : Option Units) :
    w.version k ≤ (w.write key value).version k ∧
      ((w.write key value).version k = w.version k → k ≠ key) := by
  simp only [World.write]
  by_cases hk : k = key
  · subst hk
    rw [Function.update_self]
    exact ⟨Nat.le_succ _, fun h => absurd h (Nat.succ_ne_self _)⟩
  · rw [Function.update_of_ne hk]
    exact ⟨le_rfl, fun _ => hk⟩

theorem narrows_delete (w : World C σ) (key : Units) : Narrows w (w.delete key) := by
  rw [World.delete]
  by_cases hnone : w.active key = none
  · rw [if_pos hnone]
    exact Narrows.refl w
  · rw [if_neg hnone]
    refine ⟨fun _ _ h => h, ?_, fun k => (version_write w key k none).1, ?_⟩
    · intro k id h
      by_cases hk : k = key
      · subst hk
        simp [World.write] at h
      · simpa [World.write, Function.update_of_ne hk] using h
    · intro k h
      exact Function.update_of_ne ((version_write w key k none).2 h) none w.active

theorem adds_put (w : World C σ) (a : Approval) (now : ℚ) : Adds w (w.put a now) a a.resourceId where
  records k b h := by
    by_cases hk : k = a.id
    · subst hk
      simp only [World.put, Function.update_self, Option.some.injEq] at h
      exact Or.inr h.symm
    · simp only [World.put, Function.update_of_ne hk, Option.filter_eq_some_iff] at h
      exact Or.inl h.1
  here := by simp only [World.put, Function.update_self]
  active k id hk h := by
    simp only [World.put, Function.update_of_ne hk, Option.filter_eq_some_iff] at h
    exact h.1
  version k := Nat.le_succ _
  unwritten k h := absurd h (Nat.succ_ne_self _)

theorem adds_write (w : World C σ) (a : Approval) (record resource : Units) :
    Adds w (({ w with records := Function.update w.records record (some a) }).write resource
      (some a.id)) a resource where
  records k b h := by
    by_cases hk : k = record
    · subst hk
      simp only [World.write, Function.update_self, Option.some.injEq] at h
      exact Or.inr h.symm
    · simp only [World.write, Function.update_of_ne hk] at h
      exact Or.inl h
  here := by simp only [World.write, Function.update_self]
  active k id hk h := by
    simpa [World.write, Function.update_of_ne hk] using h
  version k := (version_write w resource k (some a.id)).1
  unwritten k h := by
    simp only [World.write, Function.update_of_ne ((version_write w resource k (some a.id)).2 h)]

/-! ## Steps -/

variable [DecidableEq C]

/-- A client moves on. -/
def World.to (w : World C σ) (c : C) (p : Phase) : World C σ :=
  { w with phase := Function.update w.phase c p }

/-- `ApprovalService.approve` and the store's `put`. -/
def approveStep (s : Service C σ) (w : World C σ) (c : C) (now : ℚ) (r : ApproveCall) :
    Phase → Option (Event C) × World C σ
  | .start =>
      match r.approval s.sha256 now with
      | .error e => (none, w.to c (.raised e))
      | .ok a => (none, w.to c (.checked a))
  | .checked a =>
      match s.backend with
      | .inMemory => (some (.approved c a), (w.put a now).to c (.approved a))
      | .redis _ => (none, w.to c (.timed a (max 1 (a.expiresAt - intTime now))))
  | .timed a ttl =>
      match s.backend, s.keys a with
      | .redis takes, .ok (record, resource) =>
          if takes ttl then
            (some (.approved c a),
              ({ w with records := Function.update w.records record (some a) }.write resource
                (some a.id)).to c (.approved a))
          else (none, w.to c .refused)
      | .redis _, .error e => (none, w.to c (.raised e))
      | .inMemory, _ => (none, w)
  | _ => (none, w)

/-- The store's `invalidate`. -/
def invalidateStep (s : Service C σ) (w : World C σ) (c : C) (resourceId : Units) :
    Phase → Option (Event C) × World C σ
  | .start =>
      match s.key resourceId with
      | .error e => (none, w.to c (.raised e))
      | .ok key => (some (.invalidated resourceId), (w.delete key).to c .invalidated)
  | _ => (none, w)

/-- `PolicyViolationError` of `_active`. -/
def notActive : PyError := violation "Approval is absent, expired, superseded, or invalidated"

/-- `PolicyViolationError` of `authorize` when `consume` returns `False`. -/
def notConsumed : PyError := violation "Approval was consumed or invalidated before execution"

/-- `ApprovalService.authorize`: `_active`, the verification, and the store's `consume`. -/
def authorizeStep (s : Service C σ) (w : World C σ) (c : C) (now : ℚ) (r : AuthorizeCall σ) :
    Phase → Option (Event C) × World C σ
  | .start =>
      match s.key r.approvalId with
      | .error e => (none, w.to c (.raised e))
      | .ok key =>
          match w.records key with
          | none => (none, w.to c (.raised notActive))
          | some a => (none, w.to c (.got a))
  | .got a => (none, w.to c (if (a.expiresAt : ℚ) ≤ now then .raised notActive else .unexpired a))
  | .unexpired a =>
      match s.key a.resourceId with
      | .error e => (none, w.to c (.raised e))
      | .ok key => (none, w.to c (if w.active key = some a.id then .active a else .raised notActive))
  | .active a =>
      match r.verify s.ed s.sha256 a w.tracker with
      | (.error e, t) => (none, { w with tracker := t }.to c (.raised e))
      | (.ok claims, t) => (none, { w with tracker := t }.to c (.verified a claims 0))
  | .verified a claims failed =>
      match s.backend, s.key a.resourceId with
      | _, .error e => (none, w.to c (.raised e))
      | .inMemory, .ok key =>
          if (a.expiresAt : ℚ) ≤ now ∨ w.active key ≠ some a.id then (none, w.to c (.raised notConsumed))
          else (some (.authorized c a now), (w.delete key).to c (.returned claims))
      | .redis _, .ok key =>
          (none, w.to c (if failed < 64 then .watching a claims failed key (w.version key)
            else .raised (violation "Approval contention exceeded retry limit")))
  | .watching a claims failed key version =>
      (none, w.to c (if w.active key = some a.id then .read a claims failed key version
        else .raised notConsumed))
  | .read a claims failed key version =>
      if (a.expiresAt : ℚ) ≤ now then (none, w.to c (.raised notConsumed))
      else (some (.clockRead c now), w.to c (.ready a claims failed key version now))
  | .ready a claims failed key version readAt =>
      -- `EXEC` answers a write since `WATCH` with `WatchError`
      if w.version key = version then
        (some (.authorized c a readAt), (w.delete key).to c (.returned claims))
      else (none, w.to c (.verified a claims (failed + 1)))
  | _ => (none, w)

/-- One step. Keys lapse only in Redis, where that counts as a write of the key. -/
def step (s : Service C σ) (w : World C σ) : Action C → Option (Event C) × World C σ
  | .client c now =>
      match s.request c with
      | .approve r => approveStep s w c now r (w.phase c)
      | .invalidate resourceId => invalidateStep s w c resourceId (w.phase c)
      | .authorize r => authorizeStep s w c now r (w.phase c)
  | .lapseRecord key =>
      match s.backend with
      | .inMemory => (none, w)
      | .redis _ => (none, { w with records := Function.update w.records key none })
  | .lapseActive key =>
      match s.backend with
      | .inMemory => (none, w)
      | .redis _ => (none, w.delete key)

/-! ## What a step does -/

/-- How a call's phase changes where the step leaves the store alone. -/
inductive Next (s : Service C σ) (w : World C σ) (c : C) : Phase → Phase → Prop
  | raised (p : Phase) (e : PyError) : Next s w c p (.raised e)
  | refused (p : Phase) : Next s w c p .refused
  | checked {r : ApproveCall} {now : ℚ} {a : Approval} (hr : s.request c = .approve r)
      (ha : r.approval s.sha256 now = .ok a) : Next s w c .start (.checked a)
  | timed {r : ApproveCall} (hr : s.request c = .approve r) (a : Approval) (ttl : ℤ) :
      Next s w c (.checked a) (.timed a ttl)
  | got {key : Units} {a : Approval} (ha : w.records key = some a) : Next s w c .start (.got a)
  | unexpired (a : Approval) : Next s w c (.got a) (.unexpired a)
  | active (a : Approval) : Next s w c (.unexpired a) (.active a)
  | verified {r : AuthorizeCall σ} {a : Approval} (hr : s.request c = .authorize r)
      (hm : r.Matches s.sha256 a) (claims : CapabilityClaims) :
      Next s w c (.active a) (.verified a claims 0)
  | watching {a : Approval} {key : Units} (hk : s.key a.resourceId = .ok key)
      (claims : CapabilityClaims) (failed : ℕ) :
      Next s w c (.verified a claims failed) (.watching a claims failed key (w.version key))
  | read {a : Approval} {key : Units} (ha : w.active key = some a.id) (claims : CapabilityClaims)
      (failed version : ℕ) :
      Next s w c (.watching a claims failed key version) (.read a claims failed key version)
  | again (a : Approval) (claims : CapabilityClaims) (failed : ℕ) (key : Units) (version : ℕ)
      (now : ℚ) :
      Next s w c (.ready a claims failed key version now) (.verified a claims (failed + 1))

/-- What one step can do, with what it logs. -/
inductive Effect (s : Service C σ) (w : World C σ) : Option (Event C) → World C σ → Prop
  | lapsed {w' : World C σ} (hw : Narrows w w') (hphase : w'.phase = w.phase) : Effect s w none w'
  | moved {w' : World C σ} {c : C} {p : Phase} (hw : Narrows w w') (hrun : (w.phase c).ended = false)
      (hnext : Next s w c (w.phase c) p) (hphase : w'.phase = Function.update w.phase c p) :
      Effect s w none w'
  | approved {w' : World C σ} {c : C} {r : ApproveCall} {a : Approval} {key : Units}
      (hr : s.request c = .approve r) (hold : w.phase c = .checked a ∨ ∃ ttl, w.phase c = .timed a ttl)
      (hkey : s.key a.resourceId = .ok key) (hw : Adds w w' a key)
      (hphase : w'.phase = Function.update w.phase c (.approved a)) :
      Effect s w (some (.approved c a)) w'
  | invalidated {w' : World C σ} {c : C} {resourceId key : Units} (hrun : (w.phase c).ended = false)
      (hkey : s.key resourceId = .ok key) (hw : Narrows w w') (hgone : w'.active key = none)
      (hphase : w'.phase = Function.update w.phase c .invalidated) :
      Effect s w (some (.invalidated resourceId)) w'
  | read {c : C} {a : Approval} {claims : CapabilityClaims} {failed : ℕ} {key : Units} {version : ℕ}
      {now : ℚ} (hold : w.phase c = .read a claims failed key version) (hnow : now < a.expiresAt) :
      Effect s w (some (.clockRead c now)) (w.to c (.ready a claims failed key version now))
  | locked {w' : World C σ} {c : C} {a : Approval} {claims : CapabilityClaims} {failed : ℕ}
      {key : Units} {now : ℚ} (hold : w.phase c = .verified a claims failed)
      (hkey : s.key a.resourceId = .ok key) (hnow : now < a.expiresAt)
      (hactive : w.active key = some a.id) (hw : Narrows w w') (hgone : w'.active key = none)
      (hphase : w'.phase = Function.update w.phase c (.returned claims)) :
      Effect s w (some (.authorized c a now)) w'
  | committed {w' : World C σ} {c : C} {a : Approval} {claims : CapabilityClaims} {failed : ℕ}
      {key : Units} {now : ℚ} (hold : w.phase c = .ready a claims failed key (w.version key) now)
      (hw : Narrows w w') (hgone : w'.active key = none)
      (hphase : w'.phase = Function.update w.phase c (.returned claims)) :
      Effect s w (some (.authorized c a now)) w'

section Effects
variable {s : Service C σ} {w : World C σ}

theorem Narrows.to {w' : World C σ} (h : Narrows w w') (c : C) (p : Phase) : Narrows w (w'.to c p) :=
  ⟨h.records, h.active, h.version, h.unwritten⟩

/-- A move of one client is an effect. -/
theorem Effect.to {c : C} {p : Phase} (hrun : (w.phase c).ended = false)
    (hnext : Next s w c (w.phase c) p) : Effect s w none (w.to c p) :=
  .moved ((Narrows.refl w).to c p) hrun hnext rfl

theorem approveStep_effect {c : C} {now : ℚ} {r : ApproveCall} (hr : s.request c = .approve r) :
    Effect s w (approveStep s w c now r (w.phase c)).1 (approveStep s w c now r (w.phase c)).2 := by
  have hidle : Effect s w none w := .lapsed (Narrows.refl w) rfl
  cases hp : w.phase c with
  | start =>
      have hrun : (w.phase c).ended = false := by rw [hp]; rfl
      cases ha : r.approval s.sha256 now with
      | error e =>
          simp only [approveStep, ha]
          exact .to hrun (.raised _ e)
      | ok a =>
          simp only [approveStep, ha]
          exact .to hrun (hp ▸ .checked hr ha)
  | checked a =>
      have hrun : (w.phase c).ended = false := by rw [hp]; rfl
      cases hb : s.backend with
      | inMemory =>
          have hkey : s.key a.resourceId = .ok a.resourceId := by rw [Service.key, hb]
          simp only [approveStep, hb]
          have hput := adds_put w a now
          exact .approved hr (Or.inl hp) hkey ⟨hput.1, hput.2, hput.3, hput.4, hput.5⟩ rfl
      | redis takes =>
          simp only [approveStep, hb]
          exact .to hrun (hp ▸ .timed hr a _)
  | timed a ttl =>
      have hrun : (w.phase c).ended = false := by rw [hp]; rfl
      cases hb : s.backend with
      | inMemory =>
          simp only [approveStep, hb]
          exact hidle
      | redis takes =>
          cases hk : s.keys a with
          | error e =>
              simp only [approveStep, hb, hk]
              exact .to hrun (.raised _ e)
          | ok keys =>
              obtain ⟨record, resource⟩ := keys
              by_cases htakes : takes ttl = true
              · have hkey : s.key a.resourceId = .ok resource := by
                  rw [Service.keys] at hk
                  obtain ⟨_, -, hk⟩ := bind_eq_ok.mp hk
                  obtain ⟨-, hk⟩ := raiseIf_bind_eq_ok.mp hk
                  obtain ⟨key, hkey, hk⟩ := bind_eq_ok.mp hk
                  rw [hkey, (Prod.mk.inj (Except.ok.inj hk)).2]
                simp only [approveStep, hb, hk, if_pos htakes]
                have hadd := adds_write w a record resource
                exact .approved hr (Or.inr ⟨ttl, hp⟩) hkey ⟨hadd.1, hadd.2, hadd.3, hadd.4, hadd.5⟩ rfl
              · simp only [approveStep, hb, hk, if_neg htakes]
                exact .to hrun (.refused _)
  | _ => exact hidle

theorem invalidateStep_effect (c : C) (resourceId : Units) :
    Effect s w (invalidateStep s w c resourceId (w.phase c)).1
      (invalidateStep s w c resourceId (w.phase c)).2 := by
  cases hp : w.phase c with
  | start =>
      have hrun : (w.phase c).ended = false := by rw [hp]; rfl
      cases hk : s.key resourceId with
      | error e =>
          simp only [invalidateStep, hk]
          exact .to hrun (.raised _ e)
      | ok key =>
          simp only [invalidateStep, hk]
          refine .invalidated hrun hk ((narrows_delete w key).to c .invalidated) (delete_gone w key) ?_
          rw [World.to, phase_delete]
  | _ => exact .lapsed (Narrows.refl w) rfl

theorem authorizeStep_effect {c : C} {now : ℚ} {r : AuthorizeCall σ}
    (hr : s.request c = .authorize r) :
    Effect s w (authorizeStep s w c now r (w.phase c)).1
      (authorizeStep s w c now r (w.phase c)).2 := by
  have hrun : ∀ {p : Phase}, w.phase c = p → p.ended = false → (w.phase c).ended = false := by
    intro p hp hended
    rw [hp]
    exact hended
  cases hp : w.phase c with
  | start =>
      have hrun := hrun hp rfl
      cases hk : s.key r.approvalId with
      | error e =>
          simp only [authorizeStep, hk]
          exact .to hrun (.raised _ e)
      | ok key =>
          cases ha : w.records key with
          | none =>
              simp only [authorizeStep, hk, ha]
              exact .to hrun (.raised _ notActive)
          | some a =>
              simp only [authorizeStep, hk, ha]
              exact .to hrun (hp ▸ .got ha)
  | got a =>
      have hrun := hrun hp rfl
      simp only [authorizeStep]
      split
      · exact .to hrun (.raised _ notActive)
      · exact .to hrun (hp ▸ .unexpired a)
  | unexpired a =>
      have hrun := hrun hp rfl
      cases hk : s.key a.resourceId with
      | error e =>
          simp only [authorizeStep, hk]
          exact .to hrun (.raised _ e)
      | ok key =>
          simp only [authorizeStep, hk]
          split
          · exact .to hrun (hp ▸ .active a)
          · exact .to hrun (.raised _ notActive)
  | active a =>
      have hrun := hrun hp rfl
      have hw : ∀ t p, Narrows w ({ w with tracker := t }.to c p) := fun t p =>
        ⟨fun _ _ h => h, fun _ _ h => h, fun _ => le_rfl, fun _ _ => rfl⟩
      rcases hv : r.verify s.ed s.sha256 a w.tracker with ⟨e | claims, t⟩
      · simp only [authorizeStep, hv]
        exact .moved (hw t _) hrun (.raised _ e) rfl
      · simp only [authorizeStep, hv]
        exact .moved (hw t _) hrun (hp ▸ .verified hr (r.matches_of_verify hv) claims) rfl
  | verified a claims failed =>
      have hrun := hrun hp rfl
      cases hk : s.key a.resourceId with
      | error e =>
          simp only [authorizeStep, hk]
          exact .to hrun (.raised _ e)
      | ok key =>
          cases hb : s.backend with
          | inMemory =>
              simp only [authorizeStep, hk, hb]
              split
              · exact .to hrun (.raised _ notConsumed)
              · next hopen =>
                  rw [not_or, not_le, not_not] at hopen
                  refine .locked hp hk hopen.1 hopen.2 ((narrows_delete w key).to c _)
                    (delete_gone w key) ?_
                  rw [World.to, phase_delete]
          | redis takes =>
              simp only [authorizeStep, hk, hb]
              split
              · exact .to hrun (hp ▸ .watching hk claims failed)
              · exact .to hrun (.raised _ _)
  | watching a claims failed key version =>
      have hrun := hrun hp rfl
      simp only [authorizeStep]
      split
      · next hactive => exact .to hrun (hp ▸ .read hactive claims failed version)
      · exact .to hrun (.raised _ notConsumed)
  | read a claims failed key version =>
      have hrun := hrun hp rfl
      simp only [authorizeStep]
      split
      · exact .to hrun (.raised _ notConsumed)
      · next hnow => exact .read hp (not_le.mp hnow)
  | ready a claims failed key version readAt =>
      have hrun := hrun hp rfl
      by_cases hversion : w.version key = version
      · subst hversion
        simp only [authorizeStep, if_true]
        refine .committed hp ((narrows_delete w key).to c _) (delete_gone w key) ?_
        rw [World.to, phase_delete]
      · simp only [authorizeStep, if_neg hversion]
        exact .to hrun (hp ▸ .again a claims failed key version readAt)
  | _ => exact .lapsed (Narrows.refl w) rfl

/-- **What a step does.** -/
theorem step_effect (s : Service C σ) (w : World C σ) (action : Action C) :
    Effect s w (step s w action).1 (step s w action).2 := by
  cases action with
  | client c now =>
      cases hr : s.request c with
      | approve r =>
          simp only [step, hr]
          exact approveStep_effect hr
      | invalidate resourceId =>
          simp only [step, hr]
          exact invalidateStep_effect c resourceId
      | authorize r =>
          simp only [step, hr]
          exact authorizeStep_effect hr
  | lapseRecord key =>
      cases hb : s.backend with
      | inMemory =>
          simp only [step, hb]
          exact .lapsed (Narrows.refl w) rfl
      | redis takes =>
          simp only [step, hb]
          refine .lapsed ⟨?_, fun _ _ h => h, fun _ => le_rfl, fun _ _ => rfl⟩ rfl
          intro k a h
          by_cases hk : k = key
          · subst hk
            simp at h
          · simpa [Function.update_of_ne hk] using h
  | lapseActive key =>
      cases hb : s.backend with
      | inMemory =>
          simp only [step, hb]
          exact .lapsed (Narrows.refl w) rfl
      | redis takes =>
          simp only [step, hb]
          exact .lapsed (narrows_delete w key) (phase_delete w key)

/-- A step of `authorize` that authorizes nothing leaves both maps alone. -/
theorem store_of_authorizeStep {c : C} {now : ℚ} {r : AuthorizeCall σ} {p : Phase}
    (h : ∀ a time, (authorizeStep s w c now r p).1 ≠ some (.authorized c a time)) :
    (authorizeStep s w c now r p).2.records = w.records ∧
      (authorizeStep s w c now r p).2.active = w.active := by
  cases p with
  | start =>
      simp only [authorizeStep]
      split
      · exact ⟨rfl, rfl⟩
      · split <;> exact ⟨rfl, rfl⟩
  | unexpired a =>
      simp only [authorizeStep]
      split <;> exact ⟨rfl, rfl⟩
  | active a =>
      simp only [authorizeStep]
      split <;> exact ⟨rfl, rfl⟩
  | verified a claims failed =>
      simp only [authorizeStep] at h ⊢
      split
      · exact ⟨rfl, rfl⟩
      · next hk hb =>
          simp only [hk, hb] at h
          split at h
          · next hclosed =>
              rw [if_pos hclosed]
              exact ⟨rfl, rfl⟩
          · exact absurd rfl (h a now)
      · exact ⟨rfl, rfl⟩
  | read a claims failed key version =>
      simp only [authorizeStep]
      split <;> exact ⟨rfl, rfl⟩
  | ready a claims failed key version readAt =>
      simp only [authorizeStep] at h ⊢
      split
      · next hversion =>
          rw [if_pos hversion] at h
          exact absurd rfl (h a readAt)
      · exact ⟨rfl, rfl⟩
  | _ => exact ⟨rfl, rfl⟩

end Effects

end SwarmAuth.Python.Approvals
