import SwarmAuth.Go.Enforcement

/-!
# Runs on the Go tracker

What holds of the accepted calls of any run that shares one `MemoryUsageTracker`. `Reserve`
writes an entry's expiry anew from the token it charges, so a token's allowance is kept
only while no reservation under its `jti` ends the entry before the token.

## Main definitions

* `Charges`, `allowance` — what accepted calls charge to a token, and its limits.
* `Undisturbed`, `limits_hold_of_undisturbed` — when a token's allowance holds.
* `limit_overrun` — a run in which it does not.
-/
namespace SwarmAuth.Go.MemoryUsageTracker

open Allowance (Charge Covers Charged Retains Admits Respects)

/-- The allowance a token declares. -/
def allowance (claims : Claims) : Allowance.Limits :=
  ⟨claims.constraints.maxCalls, claims.constraints.maxAmountUSD, claims.constraints.rateLimitPerMin⟩

/-- What the accepted calls charge to a token, each at its reservation. -/
def chargesTo (claims : Claims) (log : List Accepted) : List Charge :=
  log.filterMap fun a =>
    if claims ∈ a.chain then some ⟨a.amount, a.call.reserveClock⟩ else none

/-- A reservation for `link` keeps what the entry `e` holds for the token: it does not end the
entry before the token, nor count past the last `int64`. -/
structure Keeps (T link : Claims) (e : Usage) : Prop where
  expiry : min e.expiry (T.exp + 3) ≤ link.exp + 3
  calls : T.constraints.maxCalls ≠ none → e.calls + 1 < 2 ^ 63

/-- The call, if it reserves at all, keeps the live entry under the token's `jti`. -/
def Undisturbed (ed : SignatureCheck) (T : Claims) (s : State) (c : Call) : Prop :=
  ∀ verified amount, admission ed (some memoryUsageTracker) c = .ok (verified, amount) →
    (reserve verified.chain (some amount) c.reserveClock s).1 = .ok () →
    ∀ link ∈ verified.chain, link.jti = T.jti →
      ∀ e, s T.jti = some e → c.reserveClock < e.expiry → Keeps T link e

/-- An entry as the token's limits see it; without a limit on calls, `n` of them. -/
def Usage.record (T : Claims) (n : ℕ) (u : Usage) : Allowance.Record :=
  ⟨if T.constraints.maxCalls = none then n else u.calls.toNat, u.amount, u.timestamps⟩

/-- More than the token may spend. -/
def beyond (T : Claims) : ℚ := T.constraints.maxAmountUSD.getD 0 + 1

/-- While the token can be charged, its entry accounts for the charges `h` to it and will
not be dropped. -/
structure Tracked (T : Claims) (now : ℚ) (s : State) (h : List Charge) : Prop where
  counted : T.constraints.maxCalls ≠ none → 0 ≤ (s.get T.jti).calls
  spent : 0 ≤ (s.get T.jti).amount
  respects : Respects 60 (allowance T) h
  covers : now < (T.exp + 3 : ℤ) →
    Covers 60 (beyond T) (allowance T) now ((s.get T.jti).record T h.length) h
  retained : now < (T.exp + 3 : ℤ) → h ≠ [] → ∃ e, s T.jti = some e ∧ T.exp + 3 ≤ e.expiry

section Entries
variable {T link : Claims} {now now' amount : ℚ} {s s' : State} {h : List Charge} {e : Usage}
  {n : ℕ} {chain : List Claims}

theorem get_of_some {jti : Bytes} (hs : s jti = some e) : s.get jti = e := by
  rw [State.get, hs, Option.getD_some]

/-- A purge keeps what has not expired. -/
theorem purge_of_some {jti : Bytes} (hs : s jti = some e) (hlive : now < e.expiry) :
    s.purge now jti = some e := by
  have hfloor : ⌊now⌋ < e.expiry := Int.floor_lt.mpr hlive
  rw [State.purge, hs, Option.filter_some, if_pos (by simpa using hfloor)]

/-- After a purge a token has a live entry, or none. -/
theorem purge_cases (s : State) (now : ℚ) (jti : Bytes) :
    (s.purge now).get jti = {} ∨
      ∃ e, s jti = some e ∧ now < e.expiry ∧ (s.purge now).get jti = e := by
  rcases hs : s jti with _ | e
  · left
    simp [State.get, State.purge, hs]
  · by_cases hlive : now < e.expiry
    · exact Or.inr ⟨e, rfl, hlive, get_of_some (purge_of_some hs hlive)⟩
    · left
      have hfloor : ¬ ⌊now⌋ < e.expiry := fun hlt => hlive (Int.floor_lt.mp hlt)
      rw [State.get, State.purge, hs, Option.filter_some, if_neg (by simpa using hfloor)]
      rfl

theorem limit_lt_beyond {m : ℚ} (hm : (allowance T).amount = some m) : m < beyond T := by
  have hmax : T.constraints.maxAmountUSD = some m := hm
  rw [beyond, hmax, Option.getD_some]
  linarith

/-- One more call is counted. -/
theorem addInt64_one {calls : ℤ} (hlow : 0 ≤ calls) (hhigh : calls + 1 < 2 ^ 63) :
    addInt64 calls 1 = calls + 1 := by
  rw [addInt64, Int.bmod_eq_of_le (by omega) (by omega)]

theorem countP_recent (stamps : List ℚ) {t : ℚ} (ht : now - 60 ≤ t) :
    (recent stamps now).countP (fun s => t ≤ s) = stamps.countP fun s => t ≤ s :=
  Allowance.countP_filter_le ht

/-- The token's own reservation has the charge on it. -/
theorem charged_charge (exp : ℤ)
    (hcalls : T.constraints.maxCalls ≠ none → 0 ≤ e.calls ∧ e.calls + 1 < 2 ^ 63) :
    Charged 60 (beyond T) (allowance T) ⟨amount, now⟩ (e.record T n)
      ((charge e exp amount now).record T (n + 1)) where
  calls := by
    simp only [Usage.record, charge]
    by_cases hmax : T.constraints.maxCalls = none
    · rw [if_pos hmax, if_pos hmax]
    · obtain ⟨hlow, hhigh⟩ := hcalls hmax
      rw [if_neg hmax, if_neg hmax, addInt64_one hlow hhigh]
      omega
  spent := min_le_left _ _
  stamps hl t ht := by
    have hkeep := countP_recent e.timestamps ht
    simp only [Usage.record, charge, List.countP_append, hkeep, List.countP_singleton,
      decide_eq_true_eq]
    exact le_rfl

/-- Any reservation retains the record. -/
theorem retains_charge (exp : ℤ) (hamount : 0 ≤ amount)
    (hcalls : T.constraints.maxCalls ≠ none → 0 ≤ e.calls ∧ e.calls + 1 < 2 ^ 63) :
    Retains 60 (beyond T) (allowance T) now (e.record T n) ((charge e exp amount now).record T n) where
  calls := by
    simp only [Usage.record, charge]
    by_cases hmax : T.constraints.maxCalls = none
    · rw [if_pos hmax, if_pos hmax]
    · obtain ⟨hlow, hhigh⟩ := hcalls hmax
      rw [if_neg hmax, if_neg hmax, addInt64_one hlow hhigh]
      omega
  spent := (charged_charge (n := n) exp hcalls).retains hamount |>.spent
  stamps := (charged_charge (n := n) exp hcalls).retains hamount |>.stamps

/-- What is admitted stays within the token's limits. -/
theorem admits_of_admitted (hadm : Admitted s amount now T)
    (hcalls : T.constraints.maxCalls ≠ none →
      0 ≤ (s.get T.jti).calls ∧ (s.get T.jti).calls + 1 < 2 ^ 63) :
    Admits 60 (allowance T) ⟨amount, now⟩ ((s.get T.jti).record T n)
      ((s.get T.jti).amount + amount) := by
  have hwithin := hadm.within
  simp only [exhausted, Bool.or_eq_false_iff] at hwithin
  obtain ⟨⟨hmax, hspent⟩, hrate⟩ := hwithin
  refine ⟨?_, ?_, ?_⟩
  · intro k hk
    have hsome : T.constraints.maxCalls = some k := hk
    have hne : T.constraints.maxCalls ≠ none := by
      rw [hsome]
      exact Option.some_ne_none k
    obtain ⟨hlow, hhigh⟩ := hcalls hne
    rw [hsome, Option.any_some, addInt64_one hlow hhigh, decide_eq_false_iff_not, not_lt] at hmax
    rw [Usage.record, if_neg hne]
    simp only
    omega
  · intro m hm
    have hsome : T.constraints.maxAmountUSD = some m := hm
    rw [hsome, Option.any_some, decide_eq_false_iff_not, not_lt] at hspent
    exact hspent
  · intro k hk
    have hsome : T.constraints.rateLimitPerMin = some k := hk
    rw [hsome, Option.any_some, decide_eq_false_iff_not, not_lt] at hrate
    rw [Usage.record, List.countP_eq_length_filter]
    exact hrate

/-! ## A token's entry -/

theorem Tracked.init (hT : T.constraints.Positive) (now : ℚ) : Tracked T now State.empty [] where
  counted _ := le_rfl
  spent := le_rfl
  respects := by
    apply Respects.nil
    refine ⟨fun n hn => ?_, hT.maxAmountUSD, fun n hn => ?_⟩
    · exact zero_le_one.trans (hT.maxCalls n hn)
    · exact zero_le_one.trans (hT.rateLimitPerMin n hn)
  covers _ := Covers.nil le_rfl
  retained _ hne := absurd rfl hne

theorem Tracked.later (htr : Tracked T now s h) (hnow : now ≤ now') : Tracked T now' s h where
  counted := htr.counted
  spent := htr.spent
  respects := htr.respects
  covers hlive := (htr.covers (hnow.trans_lt hlive)).retain hnow Retains.refl
  retained hlive := htr.retained (hnow.trans_lt hlive)

/-- A purge does not touch the entry of a token that can still be charged. -/
theorem Tracked.purge (htr : Tracked T now s h) : Tracked T now (s.purge now) h := by
  have hkept : now < (T.exp + 3 : ℤ) → h ≠ [] →
      ∃ e, s T.jti = some e ∧ T.exp + 3 ≤ e.expiry ∧ s.purge now T.jti = some e := by
    intro hlive hne
    obtain ⟨e, he, hexp⟩ := htr.retained hlive hne
    exact ⟨e, he, hexp, purge_of_some he (hlive.trans_le (by exact_mod_cast hexp))⟩
  have hcases := purge_cases s now T.jti
  have hspent : 0 ≤ ((s.purge now).get T.jti).amount := by
    rcases hcases with hnone | ⟨e, he, -, hget⟩
    · rw [hnone]
    · rw [hget, ← get_of_some he]
      exact htr.spent
  refine ⟨?_, hspent, htr.respects, ?_, ?_⟩
  · intro hmax
    rcases hcases with hnone | ⟨e, he, -, hget⟩
    · rw [hnone]
    · rw [hget, ← get_of_some he]
      exact htr.counted hmax
  · intro hlive
    by_cases hne : h = []
    · subst hne
      exact Covers.nil hspent
    · obtain ⟨e, he, -, hpurged⟩ := hkept hlive hne
      rw [get_of_some hpurged, ← get_of_some he]
      exact htr.covers hlive
  · intro hlive hne
    obtain ⟨e, -, hexp, hpurged⟩ := hkept hlive hne
    exact ⟨e, hpurged, hexp⟩

/-- A reservation that keeps the live entry keeps it in step, whether the token is charged
(`mine`) or not. -/
theorem Tracked.reserve (htr : Tracked T now s h) (hres : Reserved chain amount now s s')
    (hkeeps : ∀ link ∈ chain, link.jti = T.jti → ∀ e, s T.jti = some e → now < e.expiry →
      Keeps T link e) (mine : Bool) (hmine : mine = true → T ∈ chain) :
    Tracked T now s' (h ++ if mine then [⟨amount, now⟩] else []) := by
  have hpurged := htr.purge
  have hcounts : ∀ link ∈ chain, link.jti = T.jti → T.constraints.maxCalls ≠ none →
      0 ≤ ((s.purge now).get T.jti).calls ∧ ((s.purge now).get T.jti).calls + 1 < 2 ^ 63 := by
    intro link hlink hjti hmax
    refine ⟨hpurged.counted hmax, ?_⟩
    rcases purge_cases s now T.jti with hnone | ⟨e, he, hlive, hget⟩
    · rw [hnone]
      norm_num
    · rw [hget]
      exact (hkeeps link hlink hjti e he hlive).calls hmax
  -- an entry that is charged, under the token's `jti`
  have hcharged : ∀ link ∈ chain, link.jti = T.jti →
      s' T.jti = some (charge ((s.purge now).get T.jti) link.exp amount now) := by
    intro link hlink hjti
    have hs' := hres.charged link hlink
    rwa [hjti] at hs'
  cases mine with
  | true =>
      have hT := hmine rfl
      have hcalls := hcounts T hT rfl
      have hs' := hcharged T hT rfl
      have hadm := hres.admitted T hT
      have hcov := hpurged.covers hadm.live
      have hnext : Charged 60 (beyond T) (allowance T) ⟨amount, now⟩ _ _ :=
        charged_charge (n := h.length) T.exp hcalls
      have hlength : (h ++ if true then [(⟨amount, now⟩ : Charge)] else []).length = h.length + 1 := by
        simp
      refine ⟨?_, ?_, ?_, fun _ => ?_, fun _ _ => ⟨_, hs', le_rfl⟩⟩
      · intro hmax
        obtain ⟨hlow, hhigh⟩ := hcalls hmax
        rw [get_of_some hs']
        show 0 ≤ addInt64 _ 1
        rw [addInt64_one hlow hhigh]
        omega
      · rw [get_of_some hs']
        exact add_nonneg hpurged.spent hres.nonneg
      · exact htr.respects.snoc hcov le_rfl hnext (admits_of_admitted hadm hcalls)
          (fun m => limit_lt_beyond) hres.nonneg
      · rw [get_of_some hs', hlength]
        exact hcov.snoc le_rfl hnext hres.nonneg
  | false =>
      rw [if_neg Bool.false_ne_true, List.append_nil]
      by_cases hmem : T.jti ∈ chain.map Claims.jti
      · obtain ⟨link, hlink, hjti⟩ := List.mem_map.mp hmem
        have hcalls := hcounts link hlink hjti
        have hs' := hcharged link hlink hjti
        refine ⟨?_, ?_, htr.respects, ?_, ?_⟩
        · intro hmax
          obtain ⟨hlow, hhigh⟩ := hcalls hmax
          rw [get_of_some hs']
          show 0 ≤ addInt64 _ 1
          rw [addInt64_one hlow hhigh]
          omega
        · rw [get_of_some hs']
          exact add_nonneg hpurged.spent hres.nonneg
        · intro hlive
          rw [get_of_some hs']
          exact (hpurged.covers hlive).retain le_rfl (retains_charge link.exp hres.nonneg hcalls)
        · intro hlive hne
          obtain ⟨e, he, hexp⟩ := htr.retained hlive hne
          have hlive' : now < e.expiry := hlive.trans_le (by exact_mod_cast hexp)
          have hkeep := (hkeeps link hlink hjti e he hlive').expiry
          rw [min_eq_right hexp] at hkeep
          exact ⟨_, hs', hkeep⟩
      · have hsame := hres.same T.jti hmem
        have hget : s'.get T.jti = (s.purge now).get T.jti := by
          rw [State.get, hsame]
          rfl
        refine ⟨?_, ?_, htr.respects, ?_, ?_⟩
        · rw [hget]
          exact hpurged.counted
        · rw [hget]
          exact hpurged.spent
        · rw [hget]
          exact hpurged.covers
        · rw [hsame]
          exact hpurged.retained

end Entries

/-! ## Runs -/

section Runs
variable {ed : SignatureCheck} {T : Claims} {now : ℚ} {s : State} {log : List Accepted}

theorem chargesTo_append (T : Claims) (log log' : List Accepted) :
    chargesTo T (log ++ log') = chargesTo T log ++ chargesTo T log' := List.filterMap_append

/-- A call that does not disturb the token's entry keeps it in step. -/
theorem Tracked.callStep (htr : Tracked T now s (chargesTo T log)) (c : Call)
    (hundisturbed : Undisturbed ed T s c) (hnow : now ≤ c.reserveClock) :
    Tracked T c.reserveClock (callStep ed (some memoryUsageTracker) s c).2
      (chargesTo T (log ++ (Go.callStep ed (some memoryUsageTracker) s c).1.toList)) := by
  have hlater := htr.later hnow
  rcases callStep_cases ed memoryUsageTracker s c with
    hstep | ⟨verified, amount, r, s', hadmitted, hreserve, hstep⟩
  · rw [hstep]
    simpa using hlater
  rcases reserve_cases hreserve with ⟨hr, hs'⟩ | ⟨rfl, hres⟩
  · rcases hstep with ⟨-, hstep⟩ | ⟨hok, -⟩
    · rw [hstep]
      rcases hs' with rfl | rfl
      · simpa using hlater
      · simpa using hlater.purge
    · exact absurd hok hr
  · rcases hstep with ⟨hne, -⟩ | ⟨-, hstep⟩
    · exact absurd rfl hne
    · have hkeeps := hundisturbed verified amount hadmitted (congrArg Prod.fst hreserve)
      have hcharges : chargesTo T [⟨c, verified.chain, amount⟩] =
          if decide (T ∈ verified.chain) then [⟨amount, c.reserveClock⟩] else [] := by
        by_cases hmem : T ∈ verified.chain <;> simp [chargesTo, hmem]
      rw [hstep, Option.toList_some, chargesTo_append, hcharges]
      exact hlater.reserve hres hkeeps _ of_decide_eq_true

/-- **Token allowances hold on the tracker while the token's entry is not disturbed**: in
every run no reservation of which ends the live entry under the token's `jti` before the
token, the accepted calls respect the token's limits, and its entry outlives it. -/
theorem limits_hold_of_undisturbed (ed : SignatureCheck) (calls : List Call)
    (hclock : (calls.map Call.reserveClock).Pairwise (· ≤ ·)) {token : Bytes} {p : Parsed}
    (hp : parse token = .ok p)
    (hrun : Runs.Along (callStep ed (some memoryUsageTracker)) (Undisturbed ed p.claims) .empty calls) :
    let log := accepted ed (some memoryUsageTracker) .empty calls
    Respects 60 (allowance p.claims) (chargesTo p.claims log) ∧
    ((calls.map Call.reserveClock).getLastD 0 < (p.claims.exp + 3 : ℤ) →
      chargesTo p.claims log ≠ [] →
      ∃ e, Runs.final (callStep ed (some memoryUsageTracker)) .empty calls p.claims.jti = some e ∧
        p.claims.exp + 3 ≤ e.expiry) := by
  have htr := Runs.log_invariant (fun now s log => Tracked p.claims now s (chargesTo p.claims log))
    (fun _ _ _ c htr hP hnow => htr.callStep c hP hnow) (Tracked.init (parse_positive hp)) calls hrun
    hclock
  exact ⟨htr.respects, htr.retained⟩

/-! ### A token for one call -/

/-- A public key. -/
def sampleKey : Bytes := List.replicate 32 1

/-- Its signatures repeat the data's length. -/
def sampleSignature (data : Bytes) : Bytes := [UInt8.ofNat data.length]

/-- Signatures as `sampleKey` makes them. -/
def sampleCheck : SignatureCheck := fun key data signature =>
  key = sampleKey && signature = sampleSignature data

/-- The token of claims, signed with `sampleKey`. -/
def signed (claims : Map) : Bytes :=
  let header := marshal (.obj [("alg", .str "EdDSA"), ("typ", .str "JCT"),
    ("kid", .str (encodeToString sampleKey))])
  let input := encodeToString header ++ [46] ++ encodeToString (marshal (.obj claims))
  input ++ [46] ++ encodeToString (sampleSignature input)

/-- Claims of an issuer for its server, from 1000 on. -/
def sampleClaims (iss jti exp : String) (more : Map) : Map :=
  ([("iss", .str iss), ("sub", .str "server"), ("capabilities", .arr [.str "mail:*"]),
    ("iat", .scalar (.number (Json.codes "1000"))), ("exp", .scalar (.number (Json.codes exp))),
    ("jti", .str jti)] : Map) ++ more

/-- A token for one call. -/
def onceToken : Bytes := signed (sampleClaims "agent" "j1" "1010"
  [("constraints", .obj [("max_calls", .scalar (.number (Json.codes "1")))])])

/-- A call with a token, all its clock reads at `time`. -/
def sampleCall (token : Bytes) (time : ℚ) : Call :=
  { token := token,
    options := {
      registry := some ⟨fun _ => [sampleKey], fun _ => [sampleKey]⟩, audience := "server",
      capability := "mail:send" },
    clock := time, parentClock := time, reserveClock := time }

/-- The claims of a token. -/
def claimsOf (token : Bytes) : Claims :=
  match parse token with
  | .ok p => p.claims
  | .error _ => ⟨[], [], [], [], 0, 0, {}, [], []⟩

set_option maxRecDepth 100000 in
theorem parse_onceToken : ∃ p, parse onceToken = .ok p ∧ p.claims = claimsOf onceToken := by
  have hok : (parse onceToken).isOk = true := by decide +kernel
  cases hp : parse onceToken with
  | error e => simp [hp, Except.isOk, Except.toBool] at hok
  | ok p => exact ⟨p, rfl, by rw [claimsOf, hp]⟩

/-- A token does not disturb its own entry. -/
theorem keeps_self (T : Claims) {e : Usage} (hcalls : e.calls + 1 < 2 ^ 63) : Keeps T T e :=
  ⟨min_le_right _ _, fun _ => hcalls⟩

set_option maxRecDepth 100000 in
theorem limits_hold_of_undisturbed_sample :
    Respects 60 (allowance (claimsOf onceToken)) (chargesTo (claimsOf onceToken) (accepted sampleCheck
      (some memoryUsageTracker) .empty [sampleCall onceToken 1005, sampleCall onceToken 1006])) := by
  have hadmitted : ∀ time : ℚ, time = 1005 ∨ time = 1006 →
      admission sampleCheck (some memoryUsageTracker) (sampleCall onceToken time) =
        .ok (⟨claimsOf onceToken, [claimsOf onceToken]⟩, 0) := by
    intro time htime
    rcases htime with rfl | rfl <;> decide +kernel
  have hundisturbed : ∀ s, ∀ time : ℚ, time = 1005 ∨ time = 1006 →
      (∀ e, s (claimsOf onceToken).jti = some e → e.calls + 1 < 2 ^ 63) →
      Undisturbed sampleCheck (claimsOf onceToken) s (sampleCall onceToken time) := by
    intro s time htime hcalls verified amount hv _ link hlink _ e he _
    have hverified := congrArg Prod.fst (Except.ok.inj (hv.symm.trans (hadmitted time htime)))
    simp only at hverified
    rw [hverified, List.mem_singleton] at hlink
    rw [hlink]
    exact keeps_self _ (hcalls e he)
  have hparse : ∃ p, parse onceToken = .ok p ∧ p.claims = claimsOf onceToken := parse_onceToken
  obtain ⟨p, hp, hclaims⟩ := hparse
  have hafter : (callStep sampleCheck (some memoryUsageTracker) .empty (sampleCall onceToken 1005)).2
      (claimsOf onceToken).jti = some ⟨1, 0, [1005], 1013⟩ := by decide +kernel
  rw [← hclaims] at hundisturbed hafter ⊢
  apply (limits_hold_of_undisturbed sampleCheck [sampleCall onceToken 1005,
    sampleCall onceToken 1006] (by decide +kernel) hp ⟨?_, ?_, trivial⟩).1
  · exact hundisturbed _ 1005 (Or.inl rfl) fun e he => nomatch he
  · apply hundisturbed _ 1006 (Or.inr rfl)
    intro e he
    rw [hafter, Option.some.injEq] at he
    rw [← he]
    norm_num

/-! ## An allowance overrun -/

/-- A parent for the delegate `helper`. -/
def parentToken : Bytes := signed (sampleClaims "agent" "p1" "1007" [("dlg", .str "helper")])

/-- The delegate's child, under the `jti` of `onceToken`; it expires before that token. -/
def childToken : Bytes := signed (sampleClaims "helper" "j1" "1006" [("prf", .str parentToken)])

/-- The token for one call, the delegate's child, the first token again. -/
def overrunCalls : List Call :=
  [sampleCall onceToken 1001, sampleCall childToken 1005, sampleCall onceToken 1010]

set_option maxRecDepth 100000 in
/-- **The child's reservation ends the entry early**: the next call drops it, and the token
for one call is accepted twice. -/
theorem limit_overrun :
    (overrunCalls.map Call.reserveClock).Pairwise (· ≤ ·) ∧
      (∃ p, parse onceToken = .ok p ∧ p.claims = claimsOf onceToken) ∧
      ¬ Respects 60 (allowance (claimsOf onceToken)) (chargesTo (claimsOf onceToken)
        (accepted sampleCheck (some memoryUsageTracker) .empty overrunCalls)) := by
  have htwice : (chargesTo (claimsOf onceToken)
      (accepted sampleCheck (some memoryUsageTracker) .empty overrunCalls)).length = 2 := by
    decide +kernel
  have hlimit : (allowance (claimsOf onceToken)).calls = some 1 := by decide +kernel
  refine ⟨by decide +kernel, parse_onceToken, ?_⟩
  intro hres
  have hone := hres.calls 1 hlimit
  rw [htwice] at hone
  exact absurd hone (by decide)

end Runs
end SwarmAuth.Go.MemoryUsageTracker
