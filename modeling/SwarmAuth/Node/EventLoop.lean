import SwarmAuth.Node.Attenuate
import SwarmAuth.Node.Revocation

/-!
# The execution boundary on the event loop

Calls of `verifyAndCheck` and `asyncVerifyAndCheck` share one `UsageTracker` and one
`InMemoryRevocationStore`. A call runs without interruption up to its next `await`: the
synchronous one to its end, the asynchronous one up to its first look-up, from the answer to
one look-up to the next, and from the last answer through its reservation. Other calls, and
revocations, take their turns in between. A call has been accepted once its reservation is
made; what a decision callback then does is left out.

## Main definitions

* `Client`, `Phase`, `World`, `step` — the calls, and one turn of one of them.
* `Turned`, `turned` — what a turn does.
* `alone_eq_async` — **turns that nobody interrupts are `asyncVerifyAndCheck`**.
* `usage_limits_hold` — **no run passes any token's limits**.
* `revoked_never_accepted` — **a call begun after its revocation is not accepted**.
-/
namespace SwarmAuth.Node.EventLoop

open Js
open InMemoryRevocationStore (Expiry isRevoked revoke Live Finite live_iff live_revoke)
open UsageTracker (Declared Reserved Tracked Counted allowance decimalValue
  checkAndRecordChain_cases)
open BudgetUsageTracker (reached)
open Allowance (Charge Respects)

/-! ## Turns -/

/-- A call, whether `asyncVerifyAndCheck` makes it, and whether its options name the
revocation store. -/
structure Client where
  call : Call
  async : Bool
  guarded : Bool

/-- Where a call stands: it awaits the answer to a look-up before the links of `rest`. -/
inductive Phase where
  | idle
  | looking (a : Admitted) (revoked : Bool) (rest : List Claims)
  | done (result : Outcome Claims)

/-- The tracker, the store, and every call. -/
structure World (C : Type) where
  usage : UsageTracker.State
  revoked : InMemoryRevocationStore.State
  phase : C → Phase

/-- What happens next. A call reads the clock at each look-up, and last at `now`. -/
inductive Event (C : Type) where
  | turn (client : C) (looked : Units → ℚ) (now : ℚ)
  | revoke (jti : Units) (e : Expiry) (purged now : ℚ)

variable {C : Type}

/-- The last clock read. -/
def Event.time : Event C → ℚ
  | .turn _ _ now => now
  | .revoke _ _ _ now => now

/-- The clock reads of one turn do not decrease, and revocations are not before the epoch. -/
def Event.Ordered : Event C → Prop
  | .turn _ looked now => ∀ jti, looked jti ≤ now
  | .revoke _ _ purged now => purged ≤ now ∧ 0 ≤ now

/-- Nothing has happened. -/
def start : World C := ⟨.empty, .empty, fun _ => .idle⟩

/-- The call, with these answers of the store. -/
def Client.asked (c : Client) (answers : Units → Bool) (now : ℚ) : Call :=
  { c.call with
    options := { c.call.options with isRevoked := if c.guarded then answers else fun _ => false }
    reserveClock := now }

/-- The next look-up, or the reservation. -/
def proceed (a : Admitted) (looked : Units → ℚ) (now : ℚ) (w : World C) :
    List Claims → Phase × UsageTracker.State
  | [] =>
      let r := reserveAwaited (some UsageTracker.tracker) a now w.usage
      (.done r.1, r.2)
  | link :: rest => (.looking a (isRevoked w.revoked link.jti (looked link.jti)) rest, w.usage)

/-- A turn of a call: the phase and the tracker it leaves. -/
def turn (ed : SignatureCheck) (c : Client) (looked : Units → ℚ) (now : ℚ) (w : World C) :
    Phase → Phase × UsageTracker.State
  | .idle =>
      let call := c.asked (fun jti => isRevoked w.revoked jti (looked jti)) now
      if c.async then
        match admission ed (some UsageTracker.tracker) call.options.unrevoked call with
        | .error e => (.done (.error e), w.usage)
        | .ok a =>
            match linksOf a.claims with
            | .error e => (.done (.error e), w.usage)
            | .ok links => proceed a looked now w (if c.guarded then links else [])
      else
        let r := enforce ed (some UsageTracker.tracker) call w.usage
        (.done r.1, r.2)
  | .looking a revoked rest =>
      if revoked then
        (.done (.error (.swarmAuth "TOKEN_REVOKED" "Token has been revoked")), w.usage)
      else proceed a looked now w rest
  | .done result => (.done result, w.usage)

/-- A call that was accepted, its claims, and when it was charged. -/
structure Acceptance (C : Type) where
  client : C
  claims : Claims
  time : ℚ

/-- The claims of a call that has just been accepted. -/
def accepted : Phase → Phase → Option Claims
  | .done _, _ => none
  | _, .done (.ok claims) => some claims
  | _, _ => none

/-- One event. -/
def step (ed : SignatureCheck) (clients : C → Client) [DecidableEq C] (w : World C) :
    Event C → Option (Acceptance C) × World C
  | .turn c looked now =>
      let r := turn ed (clients c) looked now w (w.phase c)
      ((accepted (w.phase c) r.1).map fun claims => ⟨c, claims, now⟩,
        { w with usage := r.2, phase := Function.update w.phase c r.1 })
  | .revoke jti e purged now => (none, { w with revoked := revoke jti e purged now w.revoked })

/-! ## What a turn does -/

/-- The checks admit the call, but for revocation. -/
def Client.Admits (ed : SignatureCheck) (c : Client) (a : Admitted) : Prop :=
  admission ed (some UsageTracker.tracker) c.call.options.unrevoked c.call = .ok a

/-- The links of claims. -/
def links (claims : Claims) : List Claims := (linksOf claims).toOption.getD []

/-- What is charged for a call. -/
def charged (o : CheckOptions) : Double :=
  match o.amount with
  | .scalar (.number d) => d
  | _ => .ofInt 0

/-- A turn waits for a look-up, ends the call with an error, or reserves. -/
inductive Turned (ed : SignatureCheck) (c : Client) (now : ℚ) (usage usage' : UsageTracker.State)
    (p : Phase) : Prop
  | waits (a : Admitted) (revoked : Bool) (rest : List Claims) (ha : c.Admits ed a)
      (hp : p = .looking a revoked rest) (hu : usage' = usage)
  | refuses (e : Thrown) (hp : p = .done (.error e)) (hu : usage' = usage ∨ usage' = usage.purge now)
  | reserves (a : Admitted) (ha : c.Admits ed a) (hp : p = .done (.ok a.claims))
      (hr : Reserved a.chain a.amount now usage usage')

section Turns
variable {ed : SignatureCheck} {c : Client} {looked : Units → ℚ} {now : ℚ} {w : World C}
  {a : Admitted} {p : Phase}

/-- A reservation at the end of a call. -/
theorem turned_reserve (ha : c.Admits ed a) (usage : UsageTracker.State) {take : Reply → Outcome Unit}
    (hreturns : take .returns = .ok ()) (hthrows : ∀ e, take (.throws e) = .error e)
    (lacking : String) :
    Turned ed c now usage (reserve (some UsageTracker.tracker) take lacking a now usage).2
      (.done (reserve (some UsageTracker.tracker) take lacking a now usage).1) := by
  rw [UsageTracker.reserve_tracker hreturns hthrows]
  cases hres : UsageTracker.checkAndRecordChain a.chain a.amount now usage with
  | mk r usage' =>
      rcases checkAndRecordChain_cases hres with ⟨hne, hu⟩ | ⟨rfl, hr⟩
      · cases r with
        | error e => exact .refuses e rfl hu
        | ok u => exact absurd rfl hne
      · exact .reserves a ha rfl hr

theorem turned_reserveNow (ha : c.Admits ed a) (usage : UsageTracker.State) :
    Turned ed c now usage (reserveNow (some UsageTracker.tracker) a now usage).2
      (.done (reserveNow (some UsageTracker.tracker) a now usage).1) :=
  turned_reserve ha usage rfl (fun _ => rfl) _

theorem turned_reserveAwaited (ha : c.Admits ed a) (usage : UsageTracker.State) :
    Turned ed c now usage (reserveAwaited (some UsageTracker.tracker) a now usage).2
      (.done (reserveAwaited (some UsageTracker.tracker) a now usage).1) :=
  turned_reserve ha usage rfl (fun _ => rfl) _

theorem turned_proceed (ha : c.Admits ed a) (rest : List Claims) :
    Turned ed c now w.usage (proceed a looked now w rest).2 (proceed a looked now w rest).1 := by
  cases rest with
  | nil => exact turned_reserveAwaited ha w.usage
  | cons link rest => exact .waits a _ rest ha rfl rfl

/-- What the checks admit with the store's answers. -/
theorem admits_of_asked {answers : Units → Bool}
    (h : admission ed (some UsageTracker.tracker) (c.asked answers now).options.toVerifyOptions
      (c.asked answers now) = .ok a) :
    c.Admits ed a ∧ ∀ l, linksOf a.claims = .ok l → c.guarded = true →
      ∀ link ∈ l, answers link.jti = false := by
  obtain ⟨hadm, hlook⟩ := admission_iff_unrevoked.mp h
  refine ⟨hadm, ?_⟩
  intro l hl hguarded link hlink
  obtain ⟨l', hl', hall⟩ := bind_eq_ok.mp hlook
  obtain rfl := Except.ok.inj (hl.symm.trans hl')
  have hfalse := lookUps_eq_ok.mp hall link hlink
  have hread : (c.asked answers now).options.isRevoked = answers := by
    simp only [Client.asked, hguarded, if_true]
  rwa [hread] at hfalse

/-- **What a turn does.** -/
theorem turned (hp : ∀ result, p ≠ .done result)
    (hadm : ∀ a revoked rest, p = .looking a revoked rest → c.Admits ed a) :
    Turned ed c now w.usage (turn ed c looked now w p).2 (turn ed c looked now w p).1 := by
  cases p with
  | done result => exact absurd rfl (hp result)
  | looking a revoked rest =>
      cases revoked with
      | true => exact .refuses _ rfl (Or.inl rfl)
      | false => exact turned_proceed (hadm a false rest rfl) rest
  | idle =>
      by_cases hasync : c.async = true
      · simp only [turn, hasync, if_true]
        generalize hcall : c.asked (fun jti => isRevoked w.revoked jti (looked jti)) now = call
        cases hadmission : admission ed (some UsageTracker.tracker) call.options.unrevoked call with
        | error e => exact .refuses e rfl (Or.inl rfl)
        | ok a =>
            have ha : c.Admits ed a := by
              rw [← hcall] at hadmission
              exact hadmission
            cases hlinks : linksOf a.claims with
            | error e =>
                simp only [hlinks]
                exact .refuses e rfl (Or.inl rfl)
            | ok l =>
                simp only [hlinks]
                exact turned_proceed ha _
      · simp only [turn, hasync, enforce]
        cases hadmission : admission ed (some UsageTracker.tracker)
            (c.asked (fun jti => isRevoked w.revoked jti (looked jti)) now).options.toVerifyOptions
            (c.asked (fun jti => isRevoked w.revoked jti (looked jti)) now) with
        | error e => exact .refuses e rfl (Or.inl rfl)
        | ok a => exact turned_reserveNow (admits_of_asked hadmission).1 w.usage

/-- What is admitted: the claims of the token, its links, and the charge. -/
structure Admission (c : Client) (a : Admitted) : Prop where
  token : ∃ p, parse c.call.token = .ok p ∧ p.claims = a.claims
  linked : linksOf a.claims = .ok (links a.claims)
  presented : ∀ link ∈ links a.claims, Presented link
  expiry : ∀ link ∈ links a.claims, link = a.claims ∨ lessThan link.exp a.claims.exp = false
  chain : ∀ link ∈ a.chain, link ∈ links a.claims
  mine : a.claims ∈ a.chain
  stateful : ∀ link ∈ links a.claims, link.constraints.stateful = true → link ∈ a.chain
  amount : a.amount = charged c.call.options

/-- What is charged for a call that passes the checks. -/
theorem charged_of_checkCall {tracker : Option (Tracker UsageTracker.State)} {o : CheckOptions}
    {claims : Claims} {amount : Double} (h : checkCall tracker o claims = .ok amount) :
    amount = charged o := by
  simp only [checkCall, raiseIf_bind_eq_ok] at h
  obtain ⟨-, h⟩ := h
  obtain ⟨_, -, h⟩ := bind_eq_ok.mp h
  simp only [raiseIf_bind_eq_ok] at h
  obtain ⟨-, -, -, h⟩ := h
  rw [charged]
  generalize o.amount = value at h ⊢
  cases value with
  | scalar s =>
      cases s with
      | undefined => exact (pure_eq_ok.mp h).symm
      | null => exact (pure_eq_ok.mp h).symm
      | number d =>
          have hnumber : Value.isNullish (.scalar (.number d)) = false := rfl
          simp only [hnumber, Bool.false_eq_true, if_false, validatedAmount, raiseIf_bind_eq_ok] at h
          exact (pure_eq_ok.mp h.2).symm
      | _ => cases h
  | _ => cases h

/-- **What is admitted.** -/
theorem admission_of_admits (h : c.Admits ed a) : Admission c a := by
  obtain ⟨hverify, hcheck, hchain⟩ := admission_eq_ok.mp h
  have hv := verify_eq_ok.mp hverify
  obtain ⟨p, hp, hpclaims⟩ := parse_of_verifyCore hv.core
  have hself : Presented a.claims := ⟨_, p, hp, hpclaims⟩
  obtain ⟨l, hl, hmem, hchild, hroot⟩ := hv.links
  have hlinks : links a.claims = l := by
    rw [links, hl]
    rfl
  have hamount := charged_of_checkCall hcheck
  simp only [chainFor] at hchain
  by_cases hprf : truthy a.claims.prf = true
  · obtain ⟨q, hq, rfl⟩ := hchild hprf
    obtain ⟨q', hq', -, -, hattenuated⟩ := hv.child hprf
    obtain rfl := Except.ok.inj (hq.symm.trans hq')
    have hexp : lessThan q.claims.exp a.claims.exp = false := by
      simp only [assertAttenuated, raiseIf_bind_eq_ok, Bool.or_eq_true, not_or,
        Bool.not_eq_true] at hattenuated
      exact hattenuated.2.2.2.2.2.1.2
    simp only [hprf, if_true] at hchain
    obtain ⟨q'', hq'', hchain⟩ := bind_eq_ok.mp hchain
    obtain rfl := Except.ok.inj (hq.symm.trans hq'')
    rw [pure_eq_ok] at hchain
    refine ⟨⟨p, hp, hpclaims⟩, by rw [hlinks, hl], ?_, ?_, ?_, ?_, ?_, hamount⟩
    · rw [hlinks]
      intro link hlink
      rcases List.mem_cons.mp hlink with rfl | hlink
      · exact ⟨_, q, hq, rfl⟩
      · rw [List.mem_singleton.mp hlink]
        exact hself
    · rw [hlinks]
      intro link hlink
      rcases List.mem_cons.mp hlink with rfl | hlink
      · exact Or.inr hexp
      · exact Or.inl (List.mem_singleton.mp hlink)
    · rw [hlinks, ← hchain]
      intro link hlink
      split at hlink
      · exact hlink
      · exact List.mem_cons_of_mem _ hlink
    · rw [← hchain]
      split <;> simp
    · rw [hlinks, ← hchain]
      intro link hlink hstateful
      rcases List.mem_cons.mp hlink with rfl | hlink
      · simp [hstateful]
      · rw [List.mem_singleton.mp hlink]
        split <;> simp
  · simp only [hprf, Bool.false_eq_true, if_false, pure_eq_ok] at hchain
    have hone := hroot (eq_false_of_ne_true hprf)
    subst hone
    refine ⟨⟨p, hp, hpclaims⟩, by rw [hlinks, hl], ?_, ?_, ?_, ?_, ?_, hamount⟩
    · rw [hlinks]
      intro link hlink
      rw [List.mem_singleton.mp hlink]
      exact hself
    · rw [hlinks]
      intro link hlink
      exact Or.inl (List.mem_singleton.mp hlink)
    · rw [hlinks, ← hchain]
      exact fun _ hlink => hlink
    · rw [← hchain]
      exact List.mem_singleton_self _
    · rw [hlinks, ← hchain]
      exact fun _ hlink _ => hlink

end Turns

/-! ## Calls that nobody interrupts -/

section Alone
variable (ed : SignatureCheck) (c : Client) (looked : Units → ℚ) (now : ℚ) (w : World C)

/-- So many more turns of a call, with nothing in between. -/
def alone : ℕ → Phase × UsageTracker.State → Phase × UsageTracker.State
  | n + 1, (.looking a revoked rest, _) => alone n (turn ed c looked now w (.looking a revoked rest))
  | _, r => r

theorem alone_done (n : ℕ) (result : Outcome Claims) (usage : UsageTracker.State) :
    alone ed c looked now w n (.done result, usage) = (.done result, usage) := by
  cases n <;> rfl

/-- The look-ups one after the other, then the reservation. -/
theorem alone_proceed (a : Admitted) (rest : List Claims) :
    ∃ n, alone ed c looked now w n (proceed a looked now w rest) =
      match forM rest (lookUp fun jti => isRevoked w.revoked jti (looked jti)) with
      | .error e => (.done (.error e), w.usage)
      | .ok _ => (.done (reserveAwaited (some UsageTracker.tracker) a now w.usage).1,
          (reserveAwaited (some UsageTracker.tracker) a now w.usage).2) := by
  induction rest with
  | nil => exact ⟨0, rfl⟩
  | cons link rest ih =>
      obtain ⟨n, ih⟩ := ih
      refine ⟨n + 1, ?_⟩
      rw [proceed, alone, List.forM_cons, lookUp]
      cases hanswer : isRevoked w.revoked link.jti (looked link.jti) with
      | true =>
          rw [turn, if_pos rfl, alone_done ed c]
          rfl
      | false =>
          rw [turn, if_neg Bool.false_ne_true, ih]
          rfl

/-- **Without interruption the turns of a call are `asyncVerifyAndCheck`**, up to its report. -/
theorem alone_eq_async (hasync : c.async = true) :
    ∃ n, alone ed c looked now w n (turn ed c looked now w .idle) =
      (.done (asyncEnforce ed (some UsageTracker.tracker)
          (c.asked (fun jti => isRevoked w.revoked jti (looked jti)) now) w.usage).1,
        (asyncEnforce ed (some UsageTracker.tracker)
          (c.asked (fun jti => isRevoked w.revoked jti (looked jti)) now) w.usage).2) := by
  simp only [turn, hasync, if_true, asyncEnforce]
  generalize hcall : c.asked (fun jti => isRevoked w.revoked jti (looked jti)) now = call
  have hclock : call.reserveClock = now := by rw [← hcall, Client.asked]
  cases admission ed (some UsageTracker.tracker) call.options.unrevoked call with
  | error e => exact ⟨0, rfl⟩
  | ok a =>
      cases hlinks : linksOf a.claims with
      | error e =>
          simp only [hlinks]
          exact ⟨0, rfl⟩
      | ok l =>
          simp only [hlinks]
          have hsame : forM (if c.guarded = true then l else [])
              (lookUp fun jti => isRevoked w.revoked jti (looked jti)) =
                forM l (lookUp call.options.isRevoked) := by
            rw [← hcall]
            by_cases hguarded : c.guarded = true
            · simp only [Client.asked, hguarded, if_true]
            · simp only [Client.asked, hguarded, Bool.false_eq_true, if_false]
              exact (lookUps_eq_ok.mpr fun _ _ => rfl).symm
          have hbind : (Except.ok l >>= fun links => forM links (lookUp call.options.isRevoked)) =
              forM l (lookUp call.options.isRevoked) := rfl
          obtain ⟨n, hn⟩ := alone_proceed ed c looked now w a (if c.guarded = true then l else [])
          refine ⟨n, ?_⟩
          rw [hn, hsame, hbind]
          cases forM l (lookUp call.options.isRevoked) with
          | error e => rfl
          | ok u => rw [← hclock]

end Alone

/-! ## Limits -/

/-- The charges to a token: those of the accepted calls that it is a link of. -/
def chargesTo (clients : C → Client) (T : Claims) (h : List (Acceptance C)) : List Charge :=
  h.filterMap fun x =>
    if T ∈ links x.claims then some ⟨decimalValue (charged (clients x.client).call.options), x.time⟩
    else none

/-- Calls that look up are admitted. -/
def Waiting (ed : SignatureCheck) (clients : C → Client) (w : World C) : Prop :=
  ∀ c a revoked rest, w.phase c = .looking a revoked rest → (clients c).Admits ed a

/-- Every accepted call is logged once. -/
structure Logged (w : World C) (h : List (Acceptance C)) : Prop where
  once : (h.map Acceptance.client).Nodup
  ended : ∀ c claims, w.phase c = .done (.ok claims) ↔ ∃ x ∈ h, x.client = c ∧ x.claims = claims

/-- No other token of an accepted call has the token's id. -/
def Sole (T : Claims) (h : List (Acceptance C)) : Prop :=
  ∀ x ∈ h, ∀ link ∈ links x.claims, link.jti = T.jti → link = T

/-- The tracker says what was charged to the token, and every accepted call is logged. -/
structure Accounts (ed : SignatureCheck) (clients : C → Client) (T : Claims) (r now : ℚ) (w : World C)
    (h : List (Acceptance C)) : Prop where
  waiting : Waiting ed clients w
  logged : Logged w h
  tracked : T.constraints.stateful = true → Tracked T r now w.usage (chargesTo clients T h)
  counted : T.constraints.stateful = true → Sole T h → now < r →
    Counted T w.usage (chargesTo clients T h)

section Runs
variable {ed : SignatureCheck} {clients : C → Client} {T : Claims} {r now : ℚ} {w : World C}
  {h : List (Acceptance C)} {p p' : Phase}

theorem Accounts.start (hT : Declared T) (now : ℚ) :
    Accounts ed clients T r now EventLoop.start [] where
  waiting _ _ _ _ hp := by cases hp
  logged := by
    refine ⟨List.nodup_nil, fun c claims => ?_⟩
    constructor
    · intro hp
      cases hp
    · intro hx
      obtain ⟨x, hx, -⟩ := hx
      exact absurd hx List.not_mem_nil
  tracked _ := .init hT r now
  counted _ _ _ := .init T

/-- A call that has not ended is not logged. -/
theorem Logged.not_mem (hl : Logged w h) {c : C} (hp : ∀ result, w.phase c ≠ .done result) :
    c ∉ h.map Acceptance.client := by
  intro hmem
  obtain ⟨x, hx, rfl⟩ := List.mem_map.mp hmem
  exact hp _ ((hl.ended x.client x.claims).mpr ⟨x, hx, rfl, rfl⟩)

theorem accepted_ok {claims : Claims} (hp : ∀ result, p ≠ .done result) :
    accepted p (.done (.ok claims)) = some claims := by
  cases p with
  | done result => exact absurd rfl (hp result)
  | idle => rfl
  | looking a revoked rest => rfl

theorem accepted_none (hp' : ∀ claims, p' ≠ .done (.ok claims)) : accepted p p' = none := by
  cases p' with
  | done result =>
      cases result with
      | ok claims => exact absurd rfl (hp' claims)
      | error e => cases p <;> rfl
  | idle => cases p <;> rfl
  | looking a revoked rest => cases p <;> rfl

variable [DecidableEq C]

/-- A call goes on, or ends with an error. -/
theorem Logged.keep (hl : Logged w h) {w' : World C} {c : C} {p : Phase}
    (hp : ∀ result, w.phase c ≠ .done result) (hp' : ∀ claims, p ≠ .done (.ok claims))
    (hw : w'.phase = Function.update w.phase c p) : Logged w' h := by
  refine ⟨hl.once, fun d claims => ?_⟩
  rw [hw]
  by_cases hd : d = c
  · subst hd
    rw [Function.update_self]
    refine iff_of_false (hp' claims) ?_
    intro hx
    exact hp _ ((hl.ended d claims).mpr hx)
  · rw [Function.update_of_ne hd]
    exact hl.ended d claims

/-- A call is accepted. -/
theorem Logged.add (hl : Logged w h) {w' : World C} {x : Acceptance C}
    (hp : ∀ result, w.phase x.client ≠ .done result)
    (hw : w'.phase = Function.update w.phase x.client (.done (.ok x.claims))) :
    Logged w' (h ++ [x]) := by
  have hnew := hl.not_mem hp
  refine ⟨?_, fun d claims => ?_⟩
  · rw [List.map_append, List.nodup_append]
    refine ⟨hl.once, List.nodup_singleton _, ?_⟩
    intro a ha b hb hab
    rw [List.map_singleton, List.mem_singleton] at hb
    rw [hab, hb] at ha
    exact hnew ha
  · rw [hw]
    simp only [List.mem_append, List.mem_singleton]
    by_cases hd : d = x.client
    · subst hd
      rw [Function.update_self]
      constructor
      · intro hclaims
        exact ⟨x, Or.inr rfl, rfl, Except.ok.inj (Phase.done.inj hclaims)⟩
      · intro hy
        obtain ⟨y, hy | rfl, hclient, hclaims⟩ := hy
        · exact absurd (List.mem_map.mpr ⟨y, hy, hclient⟩) hnew
        · rw [hclaims]
    · rw [Function.update_of_ne hd, hl.ended d claims]
      constructor
      · intro hy
        obtain ⟨y, hy, hrest⟩ := hy
        exact ⟨y, Or.inl hy, hrest⟩
      · intro hy
        obtain ⟨y, hy | rfl, hclient, hclaims⟩ := hy
        · exact ⟨y, hy, hclient, hclaims⟩
        · exact absurd hclient.symm hd

/-- A call that waits after its turn is admitted. -/
theorem Waiting.update (hw : Waiting ed clients w) {w' : World C} {c : C} {p : Phase}
    (hp : ∀ a revoked rest, p = .looking a revoked rest → (clients c).Admits ed a)
    (hw' : w'.phase = Function.update w.phase c p) : Waiting ed clients w' := by
  intro d a revoked rest hd
  rw [hw'] at hd
  by_cases hdc : d = c
  · subst hdc
    rw [Function.update_self] at hd
    exact hp a revoked rest hd
  · rw [Function.update_of_ne hdc] at hd
    exact hw d a revoked rest hd

/-- Calls that look up are admitted, whatever happens. -/
theorem Waiting.step (hw : Waiting ed clients w) (e : Event C) :
    Waiting ed clients (EventLoop.step ed clients w e).2 := by
  cases e with
  | revoke jti e purged time => exact hw
  | turn d looked time =>
      refine hw.update ?_ rfl
      intro a revoked rest hphase
      by_cases hdone : ∃ result, w.phase d = .done result
      · obtain ⟨result, hdone⟩ := hdone
        rw [hdone] at hphase
        cases hphase
      · have hturn : Turned ed (clients d) time w.usage
            (turn ed (clients d) looked time w (w.phase d)).2
            (turn ed (clients d) looked time w (w.phase d)).1 :=
          turned (fun result hd => hdone ⟨result, hd⟩) (hw d)
        rw [hphase] at hturn
        cases hturn with
        | waits a' revoked' rest' ha hp' hu =>
            obtain ⟨rfl, -, -⟩ := Phase.looking.inj hp'
            exact ha
        | refuses e hp' hu => cases hp'
        | reserves a' ha hp' hres => cases hp'

omit [DecidableEq C] in
/-- An accepted call charges the links of its token. -/
theorem chargesTo_concat {a : Admitted} {c : C} (hadm : Admission (clients c) a) (time : ℚ) :
    chargesTo clients T (h ++ [⟨c, a.claims, time⟩]) = chargesTo clients T h ++
      if decide (T ∈ links a.claims) then [⟨decimalValue a.amount, time⟩] else [] := by
  rw [chargesTo, List.filterMap_append, hadm.amount]
  by_cases hmem : T ∈ links a.claims <;> simp [chargesTo, hmem]

/-- **One event keeps the accounts.** -/
theorem Accounts.step (hT : Declared T) (hr : (plus T.exp (.ofInt 3)).value? = some r)
    (hinv : Accounts ed clients T r now w h) (e : Event C) (hnow : now ≤ e.time) :
    Accounts ed clients T r e.time (EventLoop.step ed clients w e).2
      (h ++ (EventLoop.step ed clients w e).1.toList) := by
  suffices hrest : Logged (EventLoop.step ed clients w e).2
      (h ++ (EventLoop.step ed clients w e).1.toList) ∧ (T.constraints.stateful = true →
        Tracked T r e.time (EventLoop.step ed clients w e).2.usage
          (chargesTo clients T (h ++ (EventLoop.step ed clients w e).1.toList))) ∧
      (T.constraints.stateful = true → Sole T (h ++ (EventLoop.step ed clients w e).1.toList) →
        e.time < r → Counted T (EventLoop.step ed clients w e).2.usage
          (chargesTo clients T (h ++ (EventLoop.step ed clients w e).1.toList))) from
    ⟨hinv.waiting.step e, hrest.1, hrest.2.1, hrest.2.2⟩
  cases e with
  | revoke jti e purged time =>
      refine ⟨?_, ?_, ?_⟩
      · simp only [EventLoop.step, Option.toList_none, List.append_nil]
        exact ⟨hinv.logged.once, hinv.logged.ended⟩
      · simp only [EventLoop.step, Option.toList_none, List.append_nil]
        exact fun hstateful => (hinv.tracked hstateful).later hnow
      · simp only [EventLoop.step, Option.toList_none, List.append_nil]
        exact fun hstateful hsole hlive => hinv.counted hstateful hsole (hnow.trans_lt hlive)
  | turn c looked time =>
      by_cases hdone : ∃ result, w.phase c = .done result
      · -- the call has ended
        obtain ⟨result, hdone⟩ := hdone
        have hsame : EventLoop.step ed clients w (.turn c looked time) = (none, w) := by
          simp only [EventLoop.step, hdone, turn, accepted, Option.map_none]
          rw [← hdone, Function.update_eq_self]
        rw [hsame]
        simp only [Option.toList_none, List.append_nil]
        exact ⟨hinv.logged, fun hstateful => (hinv.tracked hstateful).later hnow,
          fun hstateful hsole hlive => hinv.counted hstateful hsole (hnow.trans_lt hlive)⟩
      · have hp : ∀ result, w.phase c ≠ .done result := fun result hd => hdone ⟨result, hd⟩
        have hturn : Turned ed (clients c) time w.usage
            (turn ed (clients c) looked time w (w.phase c)).2
            (turn ed (clients c) looked time w (w.phase c)).1 := turned hp (hinv.waiting c)
        rw [EventLoop.step]
        generalize turn ed (clients c) looked time w (w.phase c) = next at hturn ⊢
        obtain ⟨p, usage⟩ := next
        -- a turn that accepts nothing leaves the tracker alone, or purges it
        have hquiet : (∀ claims, p ≠ .done (.ok claims)) →
            (usage = w.usage ∨ usage = w.usage.purge time) →
            Logged ⟨usage, w.revoked, Function.update w.phase c p⟩ h ∧
              (T.constraints.stateful = true → Tracked T r time usage (chargesTo clients T h)) ∧
              (T.constraints.stateful = true → Sole T h → time < r →
                Counted T usage (chargesTo clients T h)) := by
          intro hne hu
          refine ⟨hinv.logged.keep hp hne rfl, fun hstateful => ?_, fun hstateful hsole hlive => ?_⟩
          · have hlater := (hinv.tracked hstateful).later hnow
            rcases hu with rfl | rfl
            · exact hlater
            · exact hlater.purge
          · have hcounted := hinv.counted hstateful hsole (hnow.trans_lt hlive)
            rcases hu with rfl | rfl
            · exact hcounted
            · exact hcounted.purge ((hinv.tracked hstateful).later hnow) hlive
        cases hturn with
        | waits a revoked rest ha hphase hu =>
            have hne : ∀ claims, p ≠ .done (.ok claims) := fun claims hok => by
              cases hphase.symm.trans hok
            simp only [accepted_none hne, Option.map_none, Option.toList_none, List.append_nil]
            exact hquiet hne (Or.inl hu)
        | refuses e hphase hu =>
            have hne : ∀ claims, p ≠ .done (.ok claims) := fun claims hok => by
              cases hphase.symm.trans hok
            simp only [accepted_none hne, Option.map_none, Option.toList_none, List.append_nil]
            exact hquiet hne hu
        | reserves a ha hphase hres =>
            have hadm := admission_of_admits ha
            rw [show p = .done (.ok a.claims) from hphase]
            simp only [accepted_ok hp, Option.map_some, Option.toList_some]
            have hdeclared : ∀ link ∈ a.chain, Declared link := fun link hlink =>
              UsageTracker.declared_of_presented (hadm.presented link (hadm.chain link hlink))
            have hmine : T.constraints.stateful = true → decide (T ∈ links a.claims) = true →
                T ∈ a.chain :=
              fun hstateful hlink => hadm.stateful T (of_decide_eq_true hlink) hstateful
            rw [chargesTo_concat hadm]
            refine ⟨hinv.logged.add hp rfl, fun hstateful => ?_, fun hstateful hsole hlive => ?_⟩
            · exact ((hinv.tracked hstateful).later hnow).reserve hT hr hdeclared hres _
                (hmine hstateful)
            · have hbefore : Sole T h := fun x hx => hsole x (List.mem_append_left _ hx)
              refine (hinv.counted hstateful hbefore (hnow.trans_lt hlive)).reserve
                ((hinv.tracked hstateful).later hnow) hlive hdeclared hres _ ?_ (hmine hstateful)
              -- a link of the call that has the token's id is the token
              constructor
              · exact fun hlink => List.mem_map.mpr ⟨T, hmine hstateful hlink, rfl⟩
              · intro hin
                obtain ⟨link, hlink, hjti⟩ := List.mem_map.mp hin
                have hlinks := hadm.chain link hlink
                rw [hsole ⟨c, a.claims, time⟩ (by simp) link hlinks hjti] at hlinks
                exact decide_eq_true hlinks

/-- **In every run the accepted calls of a token stay within its limits**, however the turns of
the calls interleave. Every accepted call is logged once; and as long as a token with limits,
alone with its id, can be charged, the tracker counts exactly its accepted calls. -/
theorem usage_limits_hold (ed : SignatureCheck) (clients : C → Client) (T : Claims)
    (hT : Presented T) (events : List (Event C)) (hclock : (events.map Event.time).Pairwise (· ≤ ·)) :
    Respects 60 (allowance T)
      (chargesTo clients T (Runs.log (EventLoop.step ed clients) EventLoop.start events)) ∧
    Logged (Runs.final (EventLoop.step ed clients) EventLoop.start events)
      (Runs.log (EventLoop.step ed clients) EventLoop.start events) ∧
    (T.constraints.stateful = true →
      Sole T (Runs.log (EventLoop.step ed clients) EventLoop.start events) →
      reached (plus T.exp (.ofInt 3)) ((events.map Event.time).getLastD 0) = false →
      Counted T (Runs.final (EventLoop.step ed clients) EventLoop.start events).usage
        (chargesTo clients T (Runs.log (EventLoop.step ed clients) EventLoop.start events))) := by
  have hdeclared := UsageTracker.declared_of_presented hT
  obtain ⟨r, hr⟩ := hdeclared.expiry
  have hrun := Runs.log_invariant (Accounts ed clients T r)
    (fun _ _ _ e hinv _ hnow => hinv.step hdeclared hr e hnow) (Accounts.start hdeclared) events
    (Runs.along_true (EventLoop.step ed clients) EventLoop.start events) hclock
  refine ⟨?_, hrun.logged, fun hstateful hsole hlive => ?_⟩
  · by_cases hstateful : T.constraints.stateful = true
    · exact (hrun.tracked hstateful).respects
    · -- without limits there is nothing to respect
      have hlimits : T.constraints.maxCalls = none ∧ T.constraints.maxAmountUsd = none ∧
          T.constraints.rateLimitPerMin = none := by
        simpa [Constraints.stateful, Constraints.limits] using hstateful
      have hnone : allowance T = {} := by
        rw [allowance, hlimits.1, hlimits.2.1, hlimits.2.2]
        rfl
      rw [hnone]
      exact .of_none _
  · rw [UsageTracker.reached_value hr, decide_eq_false_iff_not, not_le] at hlive
    exact hrun.counted hstateful hsole hlive

end Runs

/-! ## Revocation -/

/-- The retention of a link is not shorter than that of claims that expire no later. -/
theorem plus_three_le {d e : Double} {x y : ℚ} (hd : isSafeInteger d = true)
    (he : isSafeInteger e = true) (h : lessThan e d = false)
    (hx : (plus d (.ofInt 3)).value? = some x) (hy : (plus e (.ofInt 3)).value? = some y) :
    x ≤ y := by
  obtain ⟨m, hm, hmsafe⟩ := exists_int_of_safe hd
  obtain ⟨n, hn, hnsafe⟩ := exists_int_of_safe he
  have hthree : (Double.ofInt 3).value? = some 3 := by decide +kernel
  have hsum : ∀ {f : Double} {k : ℤ}, f.value? = some (k : ℚ) →
      plus f (.ofInt 3) = nearestTo ((k + 3 : ℤ) : ℚ) := by
    intro f k hf
    rw [plus, hf, hthree]
    push_cast
    rfl
  rw [hsum hm] at hx
  rw [hsum hn] at hy
  rw [lessThan_value hn hm, decide_eq_false_iff_not, not_lt] at h
  have hmn : m ≤ n := by exact_mod_cast h
  rw [abs_lt] at hmsafe hnsafe
  have hsmall : |m + 3| ≤ 2 ^ 55 := by
    rw [abs_le]
    omega
  have hle : ((m + 3 : ℤ) : ℚ) ≤ ((n + 3 : ℤ) : ℚ) := by
    exact_mod_cast add_le_add_left hmn 3
  by_cases hbeyond : n + 3 = 2 ^ 53 + 1
  · -- the one sum that is rounded
    rw [hbeyond, nearestTo_beyond.1, Option.some.injEq] at hy
    by_cases heq : m = n
    · subst heq
      rw [hbeyond, nearestTo_beyond.1, Option.some.injEq] at hx
      rw [← hx, ← hy]
    · have hexact : |m + 3| ≤ 2 ^ 53 := by
        rw [abs_le]
        omega
      rw [nearestTo_intCast hexact, Option.some.injEq] at hx
      rw [← hx, ← hy]
      have hlt : m + 3 ≤ 2 ^ 53 := (abs_le.mp hexact).2
      exact_mod_cast hlt
  · have hexact : (nearestTo ((n + 3 : ℤ) : ℚ)).value? = some ((n + 3 : ℤ) : ℚ) := by
      by_cases hlast : n + 3 = 2 ^ 53 + 2
      · rw [hlast]
        decide +kernel
      · apply nearestTo_intCast
        rw [abs_le]
        omega
    rw [hexact, Option.some.injEq] at hy
    obtain ⟨z, hz, hzle⟩ := nearestTo_le hexact (abs_intCast_lt hsmall) hle
    rw [hx, Option.some.injEq] at hz
    rw [← hy, hz]
    exact hzle

/-- A call that cannot be accepted any more. -/
def Doomed (link : Claims) (r now : ℚ) : Phase → Prop
  | .idle => True
  | .looking _ revoked rest => revoked = true ∨ link ∈ rest ∨ r ≤ now
  | .done result => ∀ claims, result ≠ .ok claims

/-- The link is revoked while its claims can be reserved, and the call cannot be accepted. -/
structure Barred (ed : SignatureCheck) (clients : C → Client) (c : C) (link : Claims) (r now : ℚ)
    (w : World C) : Prop where
  waiting : Waiting ed clients w
  finite : Finite w.revoked
  live : ∀ t, now ≤ t → t < r → Live w.revoked link.jti t
  doomed : Doomed link r now (w.phase c)

section Revocation
variable {ed : SignatureCheck} {clients : C → Client} {c : C} {client : Client} {link : Claims}
  {r now : ℚ} {w : World C} {looked : Units → ℚ} {a : Admitted}

theorem live_of_le {s : InMemoryRevocationStore.State} {jti : Units} {t t' : ℚ} (hs : Finite s)
    (hlive : Live s jti t) (ht : t' ≤ t) : Live s jti t' := by
  rw [live_iff hs] at hlive ⊢
  obtain ⟨d, q, hd, hq, hlt⟩ := hlive
  exact ⟨d, q, hd, hq, ht.trans_lt hlt⟩

theorem Doomed.later {now' : ℚ} {p : Phase} (h : Doomed link r now p) (hnow : now ≤ now') :
    Doomed link r now' p := by
  cases p with
  | idle => trivial
  | done result => exact h
  | looking a revoked rest =>
      rcases h with h | h | h
      · exact Or.inl h
      · exact Or.inr (Or.inl h)
      · exact Or.inr (Or.inr (h.trans hnow))

/-- **Once the link's retention has ended, no reservation is made.** -/
theorem doomed_reserve {usage usage' : UsageTracker.State} {result : Outcome Claims}
    (hturn : Turned ed client now usage usage' (.done result)) (ha : client.Admits ed a)
    (hlink : link ∈ links a.claims) (hr : (plus link.exp (.ofInt 3)).value? = some r)
    (hlate : r ≤ now) : Doomed link r now (.done result) := by
  have hadm := admission_of_admits ha
  intro claims hok
  rw [hok] at hturn
  cases hturn with
  | waits a' revoked rest _ hphase _ => cases hphase
  | refuses e hphase _ => cases hphase
  | reserves a' ha' _ hres =>
      obtain rfl := Except.ok.inj (ha.symm.trans ha')
      obtain ⟨x, hx⟩ := (UsageTracker.declared_of_presented (hadm.presented a.claims (hadm.chain _ hadm.mine))).expiry
      have hself : isSafeInteger a.claims.exp = true :=
        (hadm.presented a.claims (hadm.chain _ hadm.mine)).safe_exp
      have hle : x ≤ r := by
        rcases hadm.expiry link hlink with rfl | hexp
        · exact (Option.some.inj (hx.symm.trans hr)).le
        · exact plus_three_le hself (hadm.presented link hlink).safe_exp hexp hx hr
      have hopen := hres.live a.claims hadm.mine
      rw [UsageTracker.reached_value hx, decide_eq_false_iff_not] at hopen
      exact hopen (hle.trans hlate)

/-- What remains to be looked up includes the link, or its retention has ended. -/
theorem doomed_proceed (ha : client.Admits ed a) (hlink : link ∈ links a.claims)
    (hr : (plus link.exp (.ofInt 3)).value? = some r) (hfinite : Finite w.revoked)
    (hlive : now < r → Live w.revoked link.jti now) (hlooked : ∀ jti, looked jti ≤ now)
    {rest : List Claims} (hrest : link ∈ rest ∨ r ≤ now) :
    Doomed link r now (proceed a looked now w rest).1 := by
  cases rest with
  | nil =>
      have hlate : r ≤ now := hrest.resolve_left List.not_mem_nil
      exact doomed_reserve (turned_reserveAwaited ha w.usage) ha hlink hr hlate
  | cons l rest =>
      by_cases hlate : r ≤ now
      · exact Or.inr (Or.inr hlate)
      · rcases List.mem_cons.mp (hrest.resolve_right hlate) with rfl | hmem
        · exact Or.inl (live_of_le hfinite (hlive (not_le.mp hlate)) (hlooked link.jti))
        · exact Or.inr (Or.inl hmem)

/-- **A turn does not accept the call.** -/
theorem doomed_turn (hguarded : client.guarded = true)
    (hlink : ∀ a, client.Admits ed a → link ∈ links a.claims)
    (hr : (plus link.exp (.ofInt 3)).value? = some r) (hfinite : Finite w.revoked)
    (hlive : now < r → Live w.revoked link.jti now) (hlooked : ∀ jti, looked jti ≤ now) {p : Phase}
    (hadm : ∀ a revoked rest, p = .looking a revoked rest → client.Admits ed a)
    (hdoomed : Doomed link r now p) : Doomed link r now (turn ed client looked now w p).1 := by
  cases p with
  | done result => exact hdoomed
  | looking a revoked rest =>
      cases revoked with
      | true => exact fun claims hok => by cases hok
      | false =>
          have ha := hadm a false rest rfl
          have hrest : link ∈ rest ∨ r ≤ now := hdoomed.resolve_left Bool.false_ne_true
          exact doomed_proceed ha (hlink a ha) hr hfinite hlive hlooked hrest
  | idle =>
      by_cases hasync : client.async = true
      · simp only [turn, hasync, if_true]
        generalize hcall : client.asked (fun jti => isRevoked w.revoked jti (looked jti)) now = call
        cases hadmission : admission ed (some UsageTracker.tracker) call.options.unrevoked call with
        | error e => exact fun claims hok => by cases hok
        | ok a =>
            have ha : client.Admits ed a := by
              rw [← hcall] at hadmission
              exact hadmission
            simp only [(admission_of_admits ha).linked, hguarded, if_true]
            exact doomed_proceed ha (hlink a ha) hr hfinite hlive hlooked (Or.inl (hlink a ha))
      · simp only [turn, hasync, enforce]
        cases hadmission : admission ed (some UsageTracker.tracker)
            (client.asked (fun jti => isRevoked w.revoked jti (looked jti)) now).options.toVerifyOptions
            (client.asked (fun jti => isRevoked w.revoked jti (looked jti)) now) with
        | error e => exact fun claims hok => by cases hok
        | ok a =>
            obtain ⟨ha, hanswers⟩ := admits_of_asked hadmission
            have hlate : r ≤ now := by
              by_contra hearly
              have hlooking := live_of_le hfinite (hlive (not_le.mp hearly)) (hlooked link.jti)
              have hfalse := hanswers _ (admission_of_admits ha).linked hguarded link (hlink a ha)
              rw [Live, hfalse] at hlooking
              cases hlooking
            exact doomed_reserve (turned_reserveNow ha w.usage) ha (hlink a ha) hr hlate

variable [DecidableEq C]

/-- The store's entries stay finite. -/
theorem finite_step (hfinite : Finite w.revoked) (e : Event C) :
    Finite (EventLoop.step ed clients w e).2.revoked := by
  cases e with
  | revoke jti e purged time => exact hfinite.revoke
  | turn d looked time => exact hfinite

/-- **No event lifts the bar.** -/
theorem Barred.step (hguarded : (clients c).guarded = true)
    (hlink : ∀ a, (clients c).Admits ed a → link ∈ links a.claims)
    (hr : (plus link.exp (.ofInt 3)).value? = some r) (hinv : Barred ed clients c link r now w)
    (e : Event C) (he : e.Ordered) (hnow : now ≤ e.time) :
    Barred ed clients c link r e.time (EventLoop.step ed clients w e).2 := by
  refine ⟨hinv.waiting.step e, finite_step hinv.finite e, ?_, ?_⟩
  · intro t ht hlt
    have hold := hinv.live t (hnow.trans ht) hlt
    cases e with
    | revoke jti e purged time => exact (live_revoke hinv.finite he.1 he.2 ht).mpr (Or.inl hold)
    | turn d looked time => exact hold
  · cases e with
    | revoke jti e purged time => exact hinv.doomed.later hnow
    | turn d looked time =>
        by_cases hd : c = d
        · subst hd
          have hturn := doomed_turn (w := w) hguarded hlink hr hinv.finite (hinv.live time hnow) he
            (hinv.waiting c) (hinv.doomed.later hnow)
          simp only [EventLoop.step, Function.update_self]
          exact hturn
        · simp only [EventLoop.step, Function.update_of_ne hd]
          exact hinv.doomed.later hnow

/-- In every run calls that look up are admitted and the store's entries are finite. -/
theorem waiting_final (events : List (Event C)) (hw : Waiting ed clients w)
    (hfinite : Finite w.revoked) :
    Waiting ed clients (Runs.final (EventLoop.step ed clients) w events) ∧
      Finite (Runs.final (EventLoop.step ed clients) w events).revoked := by
  induction events generalizing w with
  | nil => exact ⟨hw, hfinite⟩
  | cons e events ih => exact ih (hw.step e) (finite_step hfinite e)

/-- **A call that begins after a link of its token was revoked is never accepted**, however its
turns interleave with other calls and revocations, when the revocation lasts as long as the
link's claims can be reserved. -/
theorem revoked_never_accepted (ed : SignatureCheck) (clients : C → Client) {c : C}
    (hguarded : (clients c).guarded = true) {p : Parsed} (hp : parse (clients c).call.token = .ok p)
    {link : Claims} (hlink : link ∈ links p.claims) {r : ℚ}
    (hr : (plus link.exp (.ofInt 3)).value? = some r) {e : Expiry} (hlate : r ≤ e.deadline)
    {before after : List (Event C)} {purged now : ℚ}
    (hordered : ∀ x ∈ before ++ .revoke link.jti e purged now :: after, x.Ordered)
    (hclock : ((before ++ .revoke link.jti e purged now :: after).map Event.time).Pairwise (· ≤ ·))
    (hidle : (Runs.final (EventLoop.step ed clients) EventLoop.start before).phase c = .idle)
    (claims : Claims) :
    (Runs.final (EventLoop.step ed clients) EventLoop.start
      (before ++ .revoke link.jti e purged now :: after)).phase c ≠ .done (.ok claims) := by
  have hstart : Waiting ed clients EventLoop.start := fun _ _ _ _ hphase => by cases hphase
  have hempty : Finite (EventLoop.start : World C).revoked :=
    fun _ _ hd => absurd hd (Option.some_ne_none _).symm
  obtain ⟨hw, hfinite⟩ := waiting_final before hstart hempty
  have hlinks : ∀ a, (clients c).Admits ed a → link ∈ links a.claims := by
    intro a ha
    obtain ⟨q, hq, hclaims⟩ := (admission_of_admits ha).token
    obtain rfl := Except.ok.inj (hp.symm.trans hq)
    rwa [← hclaims]
  have hrevoke : Event.Ordered (.revoke link.jti e purged now : Event C) :=
    hordered _ (List.mem_append_right _ List.mem_cons_self)
  have hbarred : Barred ed clients c link r now (EventLoop.step ed clients
      (Runs.final (EventLoop.step ed clients) EventLoop.start before)
      (.revoke link.jti e purged now)).2 := by
    refine ⟨hw.step _, finite_step hfinite _, ?_, ?_⟩
    · intro t ht hlt
      exact (live_revoke hfinite hrevoke.1 hrevoke.2 ht).mpr (Or.inr ⟨rfl, hlt.trans_le hlate⟩)
    · rw [show (EventLoop.step ed clients _ (.revoke link.jti e purged now)).2.phase c = .idle from
        hidle]
      trivial
  have halong : Runs.Along (EventLoop.step ed clients) (fun _ x => x.Ordered)
      (EventLoop.step ed clients (Runs.final (EventLoop.step ed clients) EventLoop.start before)
      (.revoke link.jti e purged now)).2 after := by
    rw [Runs.along_iff]
    intro b x after' heq
    exact hordered x (by simp [heq])
  rw [List.map_append, List.pairwise_append] at hclock
  have hrun := Runs.invariant_of_step
    (fun t w (_ : List (Acceptance C)) => Barred ed clients c link r t w)
    (fun _ _ _ x hinv hx hle => hinv.step hguarded hlinks hr x hx hle) after (h := []) hbarred
    halong hclock.2.1
  rw [Runs.final_append]
  intro hok
  have hdoomed := hrun.doomed
  rw [Runs.final] at hok
  rw [hok] at hdoomed
  exact hdoomed claims rfl

end Revocation

/-! ## A sample -/

/-- A token for one call. -/
def sampleToken : Units :=
  (signToken sampleSign (List.replicate 32 1)
    [(lit "iss", .str (lit "agent")), (lit "sub", .str (lit "server")),
      (lit "capabilities", .arr [.str (lit "mail:send")]),
      (lit "constraints", .obj [(lit "max_calls", .scalar (.number (.ofInt 1)))]),
      (lit "iat", .scalar (.number (.ofInt 1000))), (lit "exp", .scalar (.number (.ofInt 1010))),
      (lit "jti", .str (lit "one"))]).toOption.getD []

/-- Signatures as `sampleSign` makes them. -/
def sampleCheck : SignatureCheck := fun _ data signature => signature = sampleSign data

/-- One asynchronous call and one synchronous call with the token. -/
def sampleClients (async : Bool) : Client where
  call := ⟨sampleToken, { publicKey := some (List.replicate 32 1) }, 1001, 1001, 1001⟩
  async := async
  guarded := true

/-- The asynchronous call looks the token up, and the synchronous one takes its turn before the
other can go on. -/
def sampleEvents : List (Event Bool) :=
  [.turn true (fun _ => 1001) 1001, .turn false (fun _ => 1002) 1002, .turn true (fun _ => 1003) 1003]

set_option maxRecDepth 100000 in
theorem usage_limits_hold_sample : ∃ p, parse sampleToken = .ok p ∧
    Respects 60 (allowance p.claims) (chargesTo sampleClients p.claims
      (Runs.log (EventLoop.step sampleCheck sampleClients) EventLoop.start sampleEvents)) ∧
    Counted p.claims (Runs.final (EventLoop.step sampleCheck sampleClients) EventLoop.start
      sampleEvents).usage (chargesTo sampleClients p.claims
      (Runs.log (EventLoop.step sampleCheck sampleClients) EventLoop.start sampleEvents)) ∧
    (Runs.log (EventLoop.step sampleCheck sampleClients) EventLoop.start sampleEvents).map
      Acceptance.client = [false] := by
  obtain ⟨p, hp⟩ := exists_of_isOk (show (parse sampleToken).isOk = true by decide +kernel)
  have hall : (parse sampleToken).toOption.any (fun p => p.claims.constraints.stateful &&
      !reached (plus p.claims.exp (.ofInt 3)) 1003 &&
      (Runs.log (EventLoop.step sampleCheck sampleClients) EventLoop.start sampleEvents).all fun x =>
        (links x.claims).all fun link => decide (link = p.claims)) = true := by decide +kernel
  rw [hp] at hall
  simp only [Except.toOption, Option.any_some, Bool.and_eq_true, Bool.not_eq_true', List.all_eq_true,
    decide_eq_true_eq] at hall
  obtain ⟨⟨hstateful, hlive⟩, hsole⟩ := hall
  obtain ⟨hrespects, -, hcounted⟩ := usage_limits_hold sampleCheck sampleClients p.claims
    ⟨_, p, hp, rfl⟩ sampleEvents (by decide +kernel)
  exact ⟨p, hp, hrespects, hcounted hstateful (fun x hx link hlink _ => hsole x hx link hlink) hlive,
    by decide +kernel⟩

theorem ordered_sample (jti : Units) (e : Expiry) :
    ∀ x ∈ [] ++ Event.revoke jti e 1000 1000 :: sampleEvents, x.Ordered := by
  intro x hx
  simp only [sampleEvents, List.nil_append, List.mem_cons, List.not_mem_nil, or_false] at hx
  rcases hx with rfl | rfl | rfl | rfl
  · exact ⟨le_rfl, by norm_num⟩
  all_goals exact fun _ => le_rfl

set_option maxRecDepth 100000 in
theorem revoked_never_accepted_sample : ∃ p, parse sampleToken = .ok p ∧ ∀ claims,
    (Runs.final (EventLoop.step sampleCheck sampleClients) EventLoop.start
      ([] ++ .revoke p.claims.jti ⟨.ofInt 1010, InMemoryRevocationStore.finite_sample⟩ 1000 1000 ::
        sampleEvents)).phase true ≠ .done (.ok claims) := by
  obtain ⟨p, hp⟩ := exists_of_isOk (show (parse sampleToken).isOk = true by decide +kernel)
  have hexp : (parse sampleToken).toOption.map (fun p => p.claims.exp) = some (.ofInt 1010) := by
    decide +kernel
  have hself : p.claims ∈ links p.claims := by
    have hall : (parse sampleToken).toOption.any
        (fun p => decide (p.claims ∈ links p.claims)) = true := by decide +kernel
    rw [hp] at hall
    exact of_decide_eq_true hall
  rw [hp] at hexp
  have hr : (plus p.claims.exp (.ofInt 3)).value? =
      some (Expiry.deadline ⟨.ofInt 1010, InMemoryRevocationStore.finite_sample⟩) := by
    have heq : p.claims.exp = .ofInt 1010 := Option.some.inj hexp
    rw [heq]
    exact Expiry.value ⟨.ofInt 1010, InMemoryRevocationStore.finite_sample⟩
  have hclock : ([1000, 1001, 1002, 1003] : List ℚ).Pairwise (· ≤ ·) := by decide +kernel
  exact ⟨p, hp, revoked_never_accepted sampleCheck sampleClients rfl hp hself hr le_rfl
    (ordered_sample _ _) hclock rfl⟩

end SwarmAuth.Node.EventLoop
