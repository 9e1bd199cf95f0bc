import SwarmAuth.Python.RedisIsolation
import SwarmAuth.Python.Enforcement

/-!
# Clients of the usage tracker in Redis

Any number of clients share the keys of `RedisUsageTracker`. Their requests interleave, the
server drops keys that have expired, and a transaction whose watched keys have changed is
aborted and tried again. While no id is another with the suffix of sorted sets, every key
keeps its type: a transaction succeeds, and charges each link's hash and sorted set once.

## Main definitions

* `Reservation`, `Transaction`, `system` — the clients, and what they commit.
* `Separate`, `Sole` — ids and members that do not collide.
* `Typed`, `Typed.exec` — keys of their types, and transactions that succeed.
* `Committed`, `committed_of_ends` — what an attempt has checked when it commits.
* `Links.exec_hash`, `Links.exec_zset` — what a transaction leaves of a link.
-/
namespace SwarmAuth.Python.RedisUsageTracker

open Optimistic Optimistic.Attempt
open Allowance (Charge)
open BudgetUsageTracker (decimalText)

/-! ## Clients -/

/-- A call of `check_and_record_chain`; `member` is what `generate_jti` gives for each link. -/
structure Reservation where
  chain : List CapabilityClaims
  amount : Value
  member : Units → Units

/-- What a client commits. -/
structure Transaction where
  commit : Commit
  amount : Binary64
  member : Units → Units

variable {C : Type}

/-- The clients. A key that has expired goes at a time of the server's choice. -/
def system (cfg : Config) (calls : C → Reservation) :
    System C Key (Option Entry) Failure Transaction where
  program c _ :=
    match validated (calls c).chain (calls c).amount with
    | .error e => .raise (.raised e)
    | .ok x => do
        let commit ← attempt cfg (calls c).chain x
        return ⟨commit, x, (calls c).member⟩
  writes t time := (t.commit.commands cfg t.member).map fun c => (c.key, c.apply time)
  lapse _ time v := if v ≠ none ∧ live time v = none then some none else none

/-- An empty database, and no client has started. -/
def start : World C Key (Option Entry) Failure Transaction := { value := fun _ => none }

/-- What has been committed, in order. -/
def transactions (h : List (Event C Key (Option Entry) Failure Transaction)) : List Transaction :=
  h.filterMap fun e => e.result.toOption

/-- The charges to a token. -/
def chargesOn (T : CapabilityClaims) (ts : List Transaction) : List Charge :=
  ts.filterMap fun t => if T ∈ t.commit.chain then some (chargeOf t.amount t.commit.now) else none

/-- A client presents the token. -/
def Presented (calls : C → Reservation) (T : CapabilityClaims) : Prop := ∃ c, T ∈ (calls c).chain

/-- No id is another with the suffix of sorted sets, and no two clients add the same member. -/
structure Separate (calls : C → Reservation) : Prop where
  apart : ∀ T T', Presented calls T → Presented calls T' → T.jti ≠ T'.jti ++ callsSuffix
  fresh : ∀ c c' jti, c ≠ c' → (calls c).member jti ≠ (calls c').member jti

/-- No other token has its id, and a float has the time from which it is refused. -/
structure Sole (calls : C → Reservation) (T : CapabilityClaims) : Prop where
  unshared : ∀ T', Presented calls T' → T'.jti = T.jti → T' = T
  exact : T.exp ≠ 2 ^ 53 - 2

/-- A clock may yet read a time at which the token is not refused. -/
def Chargeable (T : CapabilityClaims) (now : ℚ) : Prop :=
  ∃ read : Binary64, now ≤ read.value ∧ read.value < T.exp + retentionAfterExpSeconds

/-! ## Entries -/

/-- Nothing, or a hash. -/
inductive HashEntry : Option Entry → Prop
  | nothing : HashEntry none
  | hash (calls : Option ℤ) (amount : Option Layout) (d : Option ℚ)
      (fine : ∀ a, amount = some a → -340 ≤ a.decimal.exp) : HashEntry (some ⟨.hash calls amount, d⟩)

/-- Nothing, or a sorted set. -/
inductive ZsetEntry : Option Entry → Prop
  | nothing : ZsetEntry none
  | zset (members : List (Units × ℚ)) (d : Option ℚ) : ZsetEntry (some ⟨.zset members, d⟩)

/-- The calls in a hash. -/
def callsOf : Option Entry → ℤ
  | some ⟨.hash calls _, _⟩ => calls.getD 0
  | _ => 0

/-- The amount in a hash. -/
def spentOf : Option Entry → Decimal
  | some ⟨.hash _ amount, _⟩ => amount.elim ⟨0, 0⟩ Layout.decimal
  | _ => ⟨0, 0⟩

/-- The members of a sorted set. -/
def membersOf : Option Entry → List (Units × ℚ)
  | some ⟨.zset members, _⟩ => members
  | _ => []

/-- The scores of a sorted set. -/
def stampsOf (v : Option Entry) : List ℚ := (membersOf v).map Prod.snd

/-- The key is set at whatever time before `d` a clock reads. -/
def Lasts (d : ℚ) (v : Option Entry) : Prop :=
  ∃ e, v = some e ∧ ∀ d', e.expiry = some d' → ∀ read : Binary64, read.value < d → read.value < d'

section Entries
variable {v : Option Entry} {time : ℚ}

theorem HashEntry.calls (hv : HashEntry v) : hgetCalls v = .ok (callsOf v) := by
  cases hv <;> rfl

theorem HashEntry.amount (hv : HashEntry v) : hgetAmount v = .ok (spentOf v) := by
  cases hv <;> rfl

theorem HashEntry.fine (hv : HashEntry v) : -340 ≤ (spentOf v).exp := by
  cases hv with
  | nothing => decide
  | hash calls amount d fine =>
      cases amount with
      | none => exact (by decide : (-340 : ℤ) ≤ 0)
      | some a => exact fine a rfl

theorem ZsetEntry.count (hv : ZsetEntry v) (above : ℚ) :
    zcount above v = .ok ((stampsOf v).countP fun t => above ≤ t) := by
  cases hv with
  | nothing => rfl
  | zset members d => simp [zcount, stampsOf, membersOf, List.countP_map, Function.comp_def]

theorem live_eq_or (time : ℚ) (v : Option Entry) : live time v = v ∨ live time v = none := by
  cases v with
  | none => exact Or.inl rfl
  | some e =>
      simp only [live, Option.filter_some]
      split_ifs
      · exact Or.inl rfl
      · exact Or.inr rfl

theorem HashEntry.of_live (hv : HashEntry v) (time : ℚ) : HashEntry (live time v) := by
  rcases live_eq_or time v with h | h
  · rwa [h]
  · rw [h]
    exact .nothing

theorem ZsetEntry.of_live (hv : ZsetEntry v) (time : ℚ) : ZsetEntry (live time v) := by
  rcases live_eq_or time v with h | h
  · rwa [h]
  · rw [h]
    exact .nothing

theorem Chargeable.earlier {T : CapabilityClaims} {now : ℚ} (h : Chargeable T now) (hle : time ≤ now) :
    Chargeable T time := by
  obtain ⟨read, hread, hlive⟩ := h
  exact ⟨read, hle.trans hread, hlive⟩

/-- A token's key that lasts is there. -/
theorem Lasts.live_eq {T : CapabilityClaims} (h : Lasts (T.exp + retentionAfterExpSeconds) v)
    (hT : Chargeable T time) : live time v = v := by
  obtain ⟨e, rfl, hlast⟩ := h
  obtain ⟨read, hread, hlive⟩ := hT
  rw [live, Option.filter_some, if_pos]
  cases he : e.expiry with
  | none => rfl
  | some d' => exact decide_eq_true (hread.trans_lt (hlast d' he read hlive))

/-- A key that lapses does not last. -/
theorem Lasts.not_lapsed {T : CapabilityClaims} (h : Lasts (T.exp + retentionAfterExpSeconds) v)
    (hT : Chargeable T time) : live time v ≠ none := by
  rw [h.live_eq hT]
  obtain ⟨e, rfl, -⟩ := h
  exact Option.some_ne_none e

end Entries

/-! ## A transaction's commands -/

section Commands
variable {cfg : Config} {time now : ℚ} {v : Option Entry}

/-- What a link's commands leave of its hash. -/
def hashAfter (time : ℚ) (total : Decimal) (ttl : ℤ) (v : Option Entry) : Option Entry :=
  some ⟨.hash (some (callsOf (live time v) + 1)) (some (decimalText total)), some (time + ttl)⟩

/-- What a link's commands leave of its sorted set. -/
def zsetAfter (time : ℚ) (member : Units) (now : ℚ) (ttl : ℤ) (v : Option Entry) : Option Entry :=
  some ⟨.zset (((membersOf (live time v)).filter (fun m => m.1 ≠ member) ++ [(member, now)]).filter
    fun m => now - 60 ≤ m.2), some (time + ttl)⟩

theorem live_some_none {d : Data} : live time (some ⟨d, none⟩) = some ⟨d, none⟩ := by
  simp [live]

theorem live_some_some {d d' : Data} {t : Option ℚ} (h : live time (some ⟨d, t⟩) = some ⟨d, t⟩) :
    live time (some ⟨d', t⟩) = some ⟨d', t⟩ := by
  simp only [live, Option.filter_some] at h ⊢
  split_ifs at h ⊢
  rfl

/-- The commands on a hash. -/
theorem apply_hash (hv : HashEntry v) (k : Key) (total : Decimal) (ttl : ℤ) :
    (Command.expire k ttl).apply time ((Command.hset k (decimalText total)).apply time
      ((Command.hincrby k 1).apply time v)) = hashAfter time total ttl v := by
  rcases live_eq_or time v with h | h
  · cases hv with
    | nothing => simp [Command.apply, Command.reply, h, live_some_none, hashAfter, callsOf]
    | hash calls amount d fine =>
        simp [Command.apply, Command.reply, h, live_some_some h, hashAfter, callsOf]
  · simp [Command.apply, Command.reply, h, live_some_none, hashAfter, callsOf]

/-- The commands on a sorted set. -/
theorem apply_zset (hv : ZsetEntry v) (k : Key) (member : Units) (ttl : ℤ) :
    (Command.expire k ttl).apply time ((Command.zremrangebyscore k (now - 60)).apply time
      ((Command.zadd k member now).apply time v)) = zsetAfter time member now ttl v := by
  have hkeep : ∀ members : List (Units × ℚ), (members ++ [(member, now)]).filter
      (fun m => now - 60 ≤ m.2) ≠ [] := by
    intro members hnil
    rw [List.filter_eq_nil_iff] at hnil
    exact hnil (member, now) (by simp) (by simp)
  rcases live_eq_or time v with h | h
  · cases hv with
    | nothing => simp [Command.apply, Command.reply, h, live_some_none, zsetAfter, membersOf]
    | zset members d =>
        have hk := hkeep (members.filter fun m => m.1 ≠ member)
        simp only [Command.apply, Command.reply, h, live_some_some h, zsetAfter, membersOf,
          Option.getD_some, hk, if_false]
  · simp [Command.apply, Command.reply, h, live_some_none, zsetAfter, membersOf]

/-- A command of a link on its hash. -/
def Command.OnHash (k : Key) : Command → Prop
  | .hincrby key _ | .expire key _ => key = k
  | .hset key amount => key = k ∧ -340 ≤ amount.decimal.exp
  | .zadd .. | .zremrangebyscore .. => False

/-- A command of a link on its sorted set. -/
def Command.OnZset (k : Key) : Command → Prop
  | .zadd key _ _ | .zremrangebyscore key _ | .expire key _ => key = k
  | .hincrby .. | .hset .. => False

theorem Command.OnHash.key {k : Key} {c : Command} (h : c.OnHash k) : c.key = k := by
  cases c with
  | hset key amount => exact h.1
  | hincrby key n => exact h
  | expire key seconds => exact h
  | zadd key member score => exact h.elim
  | zremrangebyscore key below => exact h.elim

theorem Command.OnZset.key {k : Key} {c : Command} (h : c.OnZset k) : c.key = k := by
  cases c with
  | hset key amount => exact h.elim
  | hincrby key n => exact h.elim
  | expire key seconds => exact h
  | zadd key member score => exact h
  | zremrangebyscore key below => exact h

/-- A command on a hash succeeds, and leaves one. -/
theorem HashEntry.reply (hv : HashEntry v) {k : Key} {c : Command} (hc : c.OnHash k) (time : ℚ) :
    ∃ v', c.reply time v = some v' ∧ HashEntry v' := by
  cases c with
  | hincrby key n =>
      cases hv with
      | nothing => exact ⟨_, rfl, .hash _ _ _ fun a ha => absurd ha (Option.some_ne_none a).symm⟩
      | hash calls amount d fine => exact ⟨_, rfl, .hash _ _ _ fine⟩
  | hset key amount =>
      have hfine : ∀ a, some amount = some a → -340 ≤ a.decimal.exp := by
        intro a ha
        rw [← Option.some.inj ha]
        exact hc.2
      cases hv with
      | nothing => exact ⟨_, rfl, .hash _ _ _ hfine⟩
      | hash calls amount' d fine => exact ⟨_, rfl, .hash _ _ _ hfine⟩
  | expire key seconds =>
      cases hv with
      | nothing => exact ⟨_, rfl, .nothing⟩
      | hash calls amount d fine => exact ⟨_, rfl, .hash _ _ _ fine⟩
  | zadd key member score => exact hc.elim
  | zremrangebyscore key below => exact hc.elim

/-- A command on a sorted set succeeds, and leaves one or none. -/
theorem ZsetEntry.reply (hv : ZsetEntry v) {k : Key} {c : Command} (hc : c.OnZset k) (time : ℚ) :
    ∃ v', c.reply time v = some v' ∧ ZsetEntry v' := by
  cases c with
  | zadd key member score =>
      cases hv with
      | nothing => exact ⟨_, rfl, .zset _ _⟩
      | zset members d => exact ⟨_, rfl, .zset _ _⟩
  | zremrangebyscore key below =>
      cases hv with
      | nothing => exact ⟨_, rfl, .nothing⟩
      | zset members d =>
          refine ⟨_, rfl, ?_⟩
          split_ifs
          · exact .nothing
          · exact .zset _ _
  | expire key seconds =>
      cases hv with
      | nothing => exact ⟨_, rfl, .nothing⟩
      | zset members d => exact ⟨_, rfl, .zset _ _⟩
  | hincrby key n => exact hc.elim
  | hset key amount => exact hc.elim

end Commands

/-! ## What a transaction leaves -/

section Exec
variable {cfg : Config} {calls : C → Reservation} {time : ℚ} {s : State}

/-- Every token's keys are of their types. -/
structure Typed (cfg : Config) (calls : C → Reservation) (s : State) : Prop where
  hash : ∀ T, Presented calls T → HashEntry (s (cfg.hashKey T.jti))
  zset : ∀ T, Presented calls T → ZsetEntry (s (cfg.zsetKey T.jti))

/-- A command of a link. -/
def OnLink (cfg : Config) (calls : C → Reservation) (c : Command) : Prop :=
  ∃ T, Presented calls T ∧ (c.OnHash (cfg.hashKey T.jti) ∨ c.OnZset (cfg.zsetKey T.jti))

theorem hashKey_ne_zsetKey (hsep : Separate calls) {T T' : CapabilityClaims} (hT : Presented calls T)
    (hT' : Presented calls T') : cfg.hashKey T.jti ≠ cfg.zsetKey T'.jti := by
  intro heq
  exact hsep.apart T T' hT hT' (Config.hashKey_eq_zsetKey.mp heq)

/-- A link's command succeeds, and leaves keys of their types. -/
theorem Typed.command (hsep : Separate calls) (hs : Typed cfg calls s) {c : Command}
    (hc : OnLink cfg calls c) (time : ℚ) : (c.reply time (live time (s c.key))).isSome = true ∧
      Typed cfg calls (Function.update s c.key (c.apply time (s c.key))) := by
  obtain ⟨T, hT, hhash | hzset⟩ := hc
  · obtain ⟨v', hreply, hv'⟩ := ((hs.hash T hT).of_live time).reply hhash time
    rw [hhash.key, Command.apply, hreply]
    refine ⟨rfl, ?_, ?_⟩
    · intro T' hT'
      rw [Function.update_apply]
      split_ifs
      · exact hv'
      · exact hs.hash T' hT'
    · intro T' hT'
      rw [Function.update_of_ne (hashKey_ne_zsetKey hsep hT hT').symm]
      exact hs.zset T' hT'
  · obtain ⟨v', hreply, hv'⟩ := ((hs.zset T hT).of_live time).reply hzset time
    rw [hzset.key, Command.apply, hreply]
    refine ⟨rfl, ?_, ?_⟩
    · intro T' hT'
      rw [Function.update_of_ne (hashKey_ne_zsetKey hsep hT' hT)]
      exact hs.hash T' hT'
    · intro T' hT'
      rw [Function.update_apply]
      split_ifs
      · exact hv'
      · exact hs.zset T' hT'

/-- **A transaction of links succeeds**, and leaves keys of their types. -/
theorem Typed.exec (hsep : Separate calls) (hs : Typed cfg calls s) {commands : List Command}
    (hc : ∀ c ∈ commands, OnLink cfg calls c) :
    (exec time commands s).1 = true ∧ Typed cfg calls (exec time commands s).2 := by
  induction commands generalizing s with
  | nil => exact ⟨rfl, hs⟩
  | cons c cs ih =>
      rw [List.forall_mem_cons] at hc
      obtain ⟨hsome, hnext⟩ := hs.command hsep hc.1 time
      obtain ⟨hrest, hafter⟩ := ih hnext hc.2
      exact ⟨by rw [RedisUsageTracker.exec, hsome, hrest]; rfl, hafter⟩

/-- A commit's writes are its commands. -/
theorem modifyAll_writes (commands : List Command) (s : State) :
    Store.modifyAll s (commands.map fun c => (c.key, c.apply time)) = (exec time commands s).2 := by
  induction commands generalizing s with
  | nil => rfl
  | cons c cs ih => exact ih _

/-- A key sees the commands on it. -/
theorem exec_apply (commands : List Command) (s : State) (k : Key) :
    (exec time commands s).2 k =
      (commands.filter fun c => c.key = k).foldl (fun v c => c.apply time v) (s k) := by
  rw [← modifyAll_writes, Store.modifyAll_apply, List.filter_map, List.foldl_map]
  rfl

end Exec

/-! ## Commits -/

section Commits
variable {cfg : Config} {calls : C → Reservation} {chain : List CapabilityClaims} {x : Binary64}
  {value : State} {commit : Commit}

/-- The link passes the checks on its entries, and this is its new total. -/
structure Linked (cfg : Config) (x : Binary64) (now : ℚ) (value : State) (claims : CapabilityClaims)
    (total : Decimal) : Prop where
  sum : total = decimalSum (spentOf (value (cfg.hashKey claims.jti))) x
  calls : ∀ n, claims.constraints.maxCalls = some n →
    callsOf (value (cfg.hashKey claims.jti)) + 1 ≤ n
  amount : ∀ d, claims.constraints.maxAmountUsd = some d → total.value ≤ (limitDecimal d).value
  rate : ∀ n, claims.constraints.rateLimitPerMin = some n →
    ((stampsOf (value (cfg.zsetKey claims.jti))).countP fun t => now - 60 ≤ t : ℕ) + 1 ≤ n

/-- A commit of the chain, from these values. -/
structure Committed (cfg : Config) (chain : List CapabilityClaims) (x : Binary64) (value : State)
    (commit : Commit) : Prop where
  same : commit.chain = chain
  live : ∀ claims ∈ chain, commit.now < claims.exp + retentionAfterExpSeconds
  linked : List.Forall₂ (Linked cfg x commit.now value) chain commit.totals

/-- The calls of the last minute, for a link that has a rate. -/
def recentCalls (cfg : Config) (now : ℚ) (claims : CapabilityClaims) :
    Attempt Key (Option Entry) Failure ℤ :=
  if claims.constraints.rateLimitPerMin.isSome then
    read (cfg.zsetKey claims.jti) >>= fun v => lift (zcount (now - 60) v)
  else pure 0

theorem checkLink_eq (cfg : Config) (x : Binary64) (now : ℚ) (claims : CapabilityClaims) :
    checkLink cfg x now claims = (read (cfg.hashKey claims.jti) >>= fun v => lift (hgetCalls v)) >>=
      fun calls => (read (cfg.hashKey claims.jti) >>= fun v => lift (hgetAmount v)) >>=
      fun spent => recentCalls cfg now claims >>= fun recent => do
        lift (raiseIf (claims.constraints.maxCalls.any fun n : ℤ => n < calls + 1)
          (.raised (constraintViolation [.text "Token call allowance exhausted"] "max_calls")))
        lift (raiseIf (claims.constraints.maxAmountUsd.any fun d =>
            (limitDecimal d).value < (decimalSum spent x).value)
          (.raised (constraintViolation [.text "Token budget exhausted"] "max_amount_usd")))
        lift (raiseIf (claims.constraints.rateLimitPerMin.any fun n : ℤ => n < recent + 1)
          (.raised (constraintViolation [.text "Token rate allowance exhausted"] "rate_limit_per_min")))
        return decimalSum spent x := by
  cases hrate : claims.constraints.rateLimitPerMin.isSome with
  | false => simp only [checkLink, recentCalls, hrate, Bool.false_eq_true, if_false]
  | true => simp only [checkLink, recentCalls, hrate, if_true]

/-- A link that reads the values there passes its checks on them. -/
theorem linked_of_ends {now : ℚ} {claims : CapabilityClaims} {total : Decimal}
    {trace part : List (Reply Key (Option Entry))} (hhash : HashEntry (value (cfg.hashKey claims.jti)))
    (hzset : ZsetEntry (value (cfg.zsetKey claims.jti)))
    (hcurrent : ∀ k v, .got k v ∈ trace → value k = v) (hpart : part ⊆ trace)
    (h : (checkLink cfg x now claims).Ends part (.ok total)) : Linked cfg x now value claims total := by
  rw [checkLink_eq] at h
  obtain ⟨calls, part₁, rest₁, rfl, hcalls, h⟩ := ends_bind_ok.mp h
  obtain ⟨spent, part₂, rest₂, rfl, hspent, h⟩ := ends_bind_ok.mp h
  obtain ⟨recent, part₃, rest₃, rfl, hrecent, h⟩ := ends_bind_ok.mp h
  obtain ⟨_, _, _, rfl, hn, h⟩ := ends_bind_ok.mp h
  obtain ⟨_, _, _, rfl, hd, h⟩ := ends_bind_ok.mp h
  obtain ⟨_, _, _, rfl, hr, h⟩ := ends_bind_ok.mp h
  have htotal := Except.ok.inj (ends_pure.mp h).2
  simp only [List.append_subset] at hpart
  have hcalls := read_lift_current hcurrent hpart.1 hcalls
  have hspent := read_lift_current hcurrent hpart.2.1 hspent
  rw [hhash.calls, Except.ok.injEq] at hcalls
  rw [hhash.amount, Except.ok.injEq] at hspent
  have hn := raiseIf_eq_ok.mp (ends_lift.mp hn).2.symm
  have hd := raiseIf_eq_ok.mp (ends_lift.mp hd).2.symm
  have hr := raiseIf_eq_ok.mp (ends_lift.mp hr).2.symm
  refine ⟨by rw [htotal, hspent], ?_, ?_, ?_⟩
  · intro n hmax
    rw [hcalls]
    simpa [hmax] using hn
  · intro d hmax
    rw [htotal]
    simpa [hmax] using hd
  · intro n hmax
    rw [recentCalls, hmax, Option.isSome_some, if_pos rfl] at hrecent
    have hcount := read_lift_current hcurrent hpart.2.2.1 hrecent
    rw [hzset.count, Except.ok.injEq] at hcount
    rw [hcount]
    simpa [hmax] using hr

/-- **An attempt that has read the current values commits what the checks allow**, at a clock
read after its watches. -/
theorem committed_of_ends {Fresh : Key → ℚ → Prop} {trace : List (Reply Key (Option Entry))}
    (htyped : Typed cfg calls value) (hpresented : ∀ claims ∈ chain, Presented calls claims)
    (hends : (attempt cfg chain x).Ends trace (.ok commit))
    (hcurrent : ∀ k v, .got k v ∈ trace → value k = v)
    (hfresh : trace.Pairwise fun a b => ∀ now, b = .time now → ∀ p ∈ a.watched, Fresh p.1 now) :
    Committed cfg chain x value commit ∧ ∀ k ∈ cfg.keys chain, Fresh k commit.now := by
  rw [attempt] at hends
  obtain ⟨_, _, _, rfl, hwatch, h₁⟩ := ends_bind_ok.mp hends
  obtain ⟨now, _, _, rfl, hclock, h₂⟩ := ends_bind_ok.mp h₁
  obtain ⟨_, _, _, rfl, hlive, h₃⟩ := ends_bind_ok.mp h₂
  obtain ⟨totals, links, _, rfl, htotals, h₄⟩ := ends_bind_ok.mp h₃
  obtain ⟨versions, rfl, hversions, -⟩ := ends_watchAll.mp hwatch
  obtain ⟨now', rfl, hnow⟩ := ends_clock.mp hclock
  obtain rfl := Except.ok.inj hnow
  obtain rfl := Except.ok.inj (ends_pure.mp h₄).2
  have hlive := raiseIf_eq_ok.mp (ends_lift.mp hlive).2.symm
  refine ⟨⟨rfl, ?_, ?_⟩, ?_⟩
  · intro claims hmem
    by_contra hexpired
    exact hlive (List.any_eq_true.mpr ⟨claims, hmem, decide_eq_true (not_lt.mp hexpired)⟩)
  · apply forall₂_of_ends_mapM _ htotals
    intro claims hmem total part hpart hlink
    refine linked_of_ends (htyped.hash claims (hpresented claims hmem))
      (htyped.zset claims (hpresented claims hmem)) hcurrent (fun r hr => ?_) hlink
    have hin := hpart hr
    simp only [List.mem_append]
    tauto
  · intro k hk
    rw [← hversions] at hk
    obtain ⟨p, hp, rfl⟩ := List.mem_map.mp hk
    rw [List.singleton_append, List.pairwise_cons] at hfresh
    exact hfresh.1 (.time now) (by simp) now rfl p hp

end Commits

/-! ## What a transaction leaves of a link -/

section After
variable {cfg : Config} {calls : C → Reservation} {chain : List CapabilityClaims} {value : State}
  {commit : Commit} {T : CapabilityClaims} {total : Decimal} {time now : ℚ} {k : Key}

theorem filter_charge_hash {claims : CapabilityClaims} (member : Units)
    (hk : k ≠ cfg.zsetKey claims.jti) :
    ((cfg.charge member now claims total).filter fun c => c.key = k) =
      if cfg.hashKey claims.jti = k then [.hincrby k 1, .hset k (decimalText total),
        .expire k (cfg.timeToLive claims now)] else [] := by
  by_cases heq : cfg.hashKey claims.jti = k
  · subst heq
    simp [Config.charge, Command.key, hk.symm]
  · simp [Config.charge, Command.key, hk.symm, heq]

theorem filter_charge_zset {claims : CapabilityClaims} (member : Units)
    (hk : k ≠ cfg.hashKey claims.jti) :
    ((cfg.charge member now claims total).filter fun c => c.key = k) =
      if cfg.zsetKey claims.jti = k then [.zadd k member now, .zremrangebyscore k (now - 60),
        .expire k (cfg.timeToLive claims now)] else [] := by
  by_cases heq : cfg.zsetKey claims.jti = k
  · subst heq
    simp [Config.charge, Command.key, hk.symm]
  · simp [Config.charge, Command.key, hk.symm, heq]

/-- The links of a commit. -/
structure Links (calls : C → Reservation) (chain : List CapabilityClaims) (commit : Commit) : Prop where
  same : commit.chain = chain
  length : commit.totals.length = chain.length
  distinct : (chain.map (·.jti)).Nodup
  presented : ∀ claims ∈ chain, Presented calls claims

theorem Links.nodup (hl : Links calls chain commit) {f : Units → Key} (hf : Function.Injective f) :
    ((commit.chain.zip commit.totals).map fun p => f p.1.jti).Nodup := by
  have hmap : ((commit.chain.zip commit.totals).map fun p => f p.1.jti) =
      ((commit.chain.zip commit.totals).map Prod.fst).map fun claims => f claims.jti := by
    rw [List.map_map]
    rfl
  rw [hmap, List.map_fst_zip (by rw [hl.same, hl.length]), hl.same]
  have hcomp : (chain.map fun claims => f claims.jti) = (chain.map (·.jti)).map f := by
    rw [List.map_map]
    rfl
  rw [hcomp]
  exact hl.distinct.map hf

theorem Links.presented_zip (hl : Links calls chain commit) {p : CapabilityClaims × Decimal}
    (hp : p ∈ commit.chain.zip commit.totals) : Presented calls p.1 := by
  apply hl.presented
  rw [← hl.same]
  exact (List.of_mem_zip hp).1

theorem Links.exists_total (hl : Links calls chain commit) (hT : T ∈ chain) :
    ∃ total, (T, total) ∈ commit.chain.zip commit.totals := by
  have hmem : T ∈ (commit.chain.zip commit.totals).map Prod.fst := by
    rw [List.map_fst_zip (by rw [hl.same, hl.length]), hl.same]
    exact hT
  obtain ⟨p, hp, rfl⟩ := List.mem_map.mp hmem
  exact ⟨p.2, hp⟩

/-- Both keys of a link have commands. -/
theorem Links.exists_command (hl : Links calls chain commit) (cfg : Config) (member : Units → Units)
    (hT : T ∈ commit.chain) (hk : k = cfg.hashKey T.jti ∨ k = cfg.zsetKey T.jti) :
    ∃ c ∈ commit.commands cfg member, c.key = k := by
  obtain ⟨total, hzip⟩ := hl.exists_total (hl.same ▸ hT)
  rcases hk with rfl | rfl
  · exact ⟨.hincrby (cfg.hashKey T.jti) 1,
      List.mem_flatMap.mpr ⟨_, hzip, by simp [Config.charge]⟩, rfl⟩
  · exact ⟨.zadd (cfg.zsetKey T.jti) (member T.jti) commit.now,
      List.mem_flatMap.mpr ⟨_, hzip, by simp [Config.charge]⟩, rfl⟩

/-- **A transaction leaves a link's hash charged once.** -/
theorem Links.exec_hash (hl : Links calls chain commit) (hsep : Separate calls)
    (hv : HashEntry (value (cfg.hashKey T.jti))) (member : Units → Units)
    (hT : (T, total) ∈ commit.chain.zip commit.totals) :
    (exec time (commit.commands cfg member) value).2 (cfg.hashKey T.jti) =
      hashAfter time total (cfg.timeToLive T commit.now) (value (cfg.hashKey T.jti)) := by
  have hcommands : ((commit.commands cfg member).filter fun c => c.key = cfg.hashKey T.jti) =
      [.hincrby (cfg.hashKey T.jti) 1, .hset (cfg.hashKey T.jti) (decimalText total),
        .expire (cfg.hashKey T.jti) (cfg.timeToLive T commit.now)] := by
    rw [Commit.commands, List.filter_flatMap]
    have heach : ∀ p ∈ commit.chain.zip commit.totals,
        ((cfg.charge (member p.1.jti) commit.now p.1 p.2).filter fun c => c.key = cfg.hashKey T.jti) =
          if cfg.hashKey p.1.jti = cfg.hashKey T.jti then [.hincrby (cfg.hashKey p.1.jti) 1,
            .hset (cfg.hashKey p.1.jti) (decimalText p.2),
            .expire (cfg.hashKey p.1.jti) (cfg.timeToLive p.1 commit.now)] else [] := by
      intro p hp
      rw [filter_charge_hash _ (hashKey_ne_zsetKey hsep (hl.presented_zip hT) (hl.presented_zip hp))]
      split_ifs with heq
      · rw [heq]
      · rfl
    rw [List.flatMap_congr heach]
    exact Store.flatMap_of_key (f := fun p : CapabilityClaims × Decimal => cfg.hashKey p.1.jti)
      (hl.nodup fun _ _ => Config.hashKey_inj.mp) hT
  rw [exec_apply, hcommands]
  exact apply_hash hv _ _ _

/-- **A transaction leaves a link's sorted set with one more member.** -/
theorem Links.exec_zset (hl : Links calls chain commit) (hsep : Separate calls)
    (hv : ZsetEntry (value (cfg.zsetKey T.jti))) (member : Units → Units)
    (hT : (T, total) ∈ commit.chain.zip commit.totals) :
    (exec time (commit.commands cfg member) value).2 (cfg.zsetKey T.jti) =
      zsetAfter time (member T.jti) commit.now (cfg.timeToLive T commit.now)
        (value (cfg.zsetKey T.jti)) := by
  have hcommands : ((commit.commands cfg member).filter fun c => c.key = cfg.zsetKey T.jti) =
      [.zadd (cfg.zsetKey T.jti) (member T.jti) commit.now,
        .zremrangebyscore (cfg.zsetKey T.jti) (commit.now - 60),
        .expire (cfg.zsetKey T.jti) (cfg.timeToLive T commit.now)] := by
    rw [Commit.commands, List.filter_flatMap]
    have heach : ∀ p ∈ commit.chain.zip commit.totals,
        ((cfg.charge (member p.1.jti) commit.now p.1 p.2).filter fun c => c.key = cfg.zsetKey T.jti) =
          if cfg.zsetKey p.1.jti = cfg.zsetKey T.jti then
            [.zadd (cfg.zsetKey p.1.jti) (member p.1.jti) commit.now,
              .zremrangebyscore (cfg.zsetKey p.1.jti) (commit.now - 60),
              .expire (cfg.zsetKey p.1.jti) (cfg.timeToLive p.1 commit.now)] else [] := by
      intro p hp
      have hne : cfg.hashKey p.1.jti ≠ cfg.zsetKey T.jti :=
        hashKey_ne_zsetKey hsep (hl.presented_zip hp) (hl.presented_zip hT)
      rw [filter_charge_zset _ hne.symm]
      split_ifs with heq
      · rw [heq]
      · rfl
    rw [List.flatMap_congr heach]
    exact Store.flatMap_of_key (f := fun p : CapabilityClaims × Decimal => cfg.zsetKey p.1.jti)
      (hl.nodup fun _ _ => Config.zsetKey_inj.mp) hT
  rw [exec_apply, hcommands]
  exact apply_zset hv _ _ _

end After

end SwarmAuth.Python.RedisUsageTracker
