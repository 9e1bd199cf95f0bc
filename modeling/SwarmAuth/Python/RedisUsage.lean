import SwarmAuth.Python.Budgets
import SwarmAuth.Lib.Optimistic

/-!
# Token usage in Redis

`RedisUsageTracker`: under each token id a hash with the calls and the amount spent, and a
sorted set with one member for each call. A transaction watches both keys of every link,
reads them, and commits the commands that charge each link. A command on a key of the other
type is answered with an error, wherever it stands; the commands after it still run. Counts
stay below the limit of `HINCRBY`.

## Main definitions

* `Data`, `Command`, `exec` — typed keys, and a transaction's commands.
* `Config`, `attempt`, `Commit.commands` — the tracker's code.
* `Call`, `checkAndRecordChain` — a call that no other client disturbs.
-/
namespace SwarmAuth.Python.RedisUsageTracker

open Optimistic Optimistic.Attempt
open BudgetUsageTracker (decimalText)

/-! ## Redis -/

/-- A key in Redis. -/
abbrev Key := Units

/-- A hash with the two fields of the tracker, or a sorted set. -/
inductive Data where
  | hash (calls : Option ℤ) (amount : Option Layout)
  | zset (members : List (Units × ℚ))
  deriving DecidableEq

/-- A key's data, until it expires. -/
structure Entry where
  data : Data
  expiry : Option ℚ := none
  deriving DecidableEq

/-- The keys that are set. -/
abbrev State := Key → Option Entry

/-- What a key holds for the server at a time. -/
def live (time : ℚ) (v : Option Entry) : Option Entry :=
  v.filter fun e => e.expiry.all fun d => time < d

/-- What stops a call: an exception of the tracker, or Redis's `WRONGTYPE`. -/
inductive Failure where
  | raised (e : PyError)
  | wrongType
  deriving DecidableEq

/-- A command of a transaction. -/
inductive Command where
  | hincrby (key : Key) (by_ : ℤ)
  | hset (key : Key) (amount : Layout)
  | zadd (key : Key) (member : Units) (score : ℚ)
  | zremrangebyscore (key : Key) (below : ℚ)
  | expire (key : Key) (seconds : ℤ)

/-- The key of a command. -/
def Command.key : Command → Key
  | hincrby key _ | hset key _ | zadd key _ _ | zremrangebyscore key _ | expire key _ => key

/-- What a command leaves of a key's value; none is `WRONGTYPE`. -/
def Command.reply (time : ℚ) : Command → Option Entry → Option (Option Entry)
  | hincrby _ n, none => some (some ⟨.hash (some n) none, none⟩)
  | hincrby _ n, some ⟨.hash calls amount, d⟩ => some (some ⟨.hash (some (calls.getD 0 + n)) amount, d⟩)
  | hset _ text, none => some (some ⟨.hash none (some text), none⟩)
  | hset _ text, some ⟨.hash calls _, d⟩ => some (some ⟨.hash calls (some text), d⟩)
  | zadd _ member score, none => some (some ⟨.zset [(member, score)], none⟩)
  | zadd _ member score, some ⟨.zset members, d⟩ =>
      some (some ⟨.zset (members.filter (fun m => m.1 ≠ member) ++ [(member, score)]), d⟩)
  | zremrangebyscore _ _, none => some none
  | zremrangebyscore _ below, some ⟨.zset members, d⟩ =>
      let kept := members.filter fun m => below ≤ m.2
      some (if kept = [] then none else some ⟨.zset kept, d⟩)
  | expire _ _, none => some none
  | expire _ seconds, some e => some (some { e with expiry := some (time + seconds) })
  | _, _ => none

/-- What a command leaves under its key; after an error, what was there. -/
def Command.apply (time : ℚ) (c : Command) (v : Option Entry) : Option Entry :=
  (c.reply time (live time v)).getD v

/-- The commands of a transaction, one after another, and whether all of them succeed. -/
def exec (time : ℚ) : List Command → State → Bool × State
  | [], s => (true, s)
  | c :: cs, s =>
      let rest := exec time cs (Function.update s c.key (c.apply time (s c.key)))
      ((c.reply time (live time (s c.key))).isSome && rest.1, rest.2)

/-- `int(pipe.hget(key, "calls") or 0)`. -/
def hgetCalls : Option Entry → Except Failure ℤ
  | none => .ok 0
  | some ⟨.hash calls _, _⟩ => .ok (calls.getD 0)
  | some ⟨.zset _, _⟩ => .error .wrongType

/-- `Decimal` of `pipe.hget(key, "amount") or b"0"`. -/
def hgetAmount : Option Entry → Except Failure Decimal
  | none => .ok ⟨0, 0⟩
  | some ⟨.hash _ amount, _⟩ => .ok (amount.elim ⟨0, 0⟩ Layout.decimal)
  | some ⟨.zset _, _⟩ => .error .wrongType

/-- `pipe.zcount(key, above, "+inf")`. -/
def zcount (above : ℚ) : Option Entry → Except Failure ℤ
  | none => .ok 0
  | some ⟨.zset members, _⟩ => .ok (members.countP fun m => above ≤ m.2)
  | some ⟨.hash _ _, _⟩ => .error .wrongType

/-! ## The tracker -/

/-- The arguments of the constructor. -/
structure Config where
  keyPrefix : Units := "swarmauth:usage:"
  keyTtlSeconds : ℤ := 60
  positive : 0 < keyTtlSeconds := by decide

/-- `_hash_key`. -/
def Config.hashKey (cfg : Config) (jti : Units) : Key := cfg.keyPrefix ++ jti

/-- `_zset_key`. -/
def Config.zsetKey (cfg : Config) (jti : Units) : Key := cfg.keyPrefix ++ jti ++ lit ":calls"

/-- A link's calls and amount are read and checked, up to its new total. -/
def checkLink (cfg : Config) (amount : Binary64) (now : ℚ) (claims : CapabilityClaims) :
    Attempt Key (Option Entry) Failure Decimal := do
  let limits := claims.constraints
  let calls ← read (cfg.hashKey claims.jti) >>= fun v => lift (hgetCalls v)
  let spent ← read (cfg.hashKey claims.jti) >>= fun v => lift (hgetAmount v)
  let total := decimalSum spent amount
  let recent ← if limits.rateLimitPerMin.isSome then
      read (cfg.zsetKey claims.jti) >>= fun v => lift (zcount (now - 60) v)
    else pure 0
  lift (raiseIf (limits.maxCalls.any fun n : ℤ => n < calls + 1)
    (.raised (constraintViolation [.text "Token call allowance exhausted"] "max_calls")))
  lift (raiseIf (limits.maxAmountUsd.any fun d => (limitDecimal d).value < total.value)
    (.raised (constraintViolation [.text "Token budget exhausted"] "max_amount_usd")))
  lift (raiseIf (limits.rateLimitPerMin.any fun n : ℤ => n < recent + 1)
    (.raised (constraintViolation [.text "Token rate allowance exhausted"] "rate_limit_per_min")))
  return total

/-- What a transaction charges: the chain, the clock read, and each link's new total. -/
structure Commit where
  chain : List CapabilityClaims
  now : ℚ
  totals : List Decimal

/-- The keys of a chain. -/
def Config.keys (cfg : Config) (chain : List CapabilityClaims) : List Key :=
  chain.flatMap fun claims => [cfg.hashKey claims.jti, cfg.zsetKey claims.jti]

/-- One pass of the retry loop, up to `pipe.multi()`. -/
def attempt (cfg : Config) (chain : List CapabilityClaims) (amount : Binary64) :
    Attempt Key (Option Entry) Failure Commit := do
  watchAll (cfg.keys chain)
  let now ← clock
  lift (raiseIf (chain.any fun claims => claims.exp + retentionAfterExpSeconds ≤ now)
    (.raised (.of .tokenExpired [.text "Token expired before usage reservation"])))
  let totals ← chain.mapM (checkLink cfg amount now)
  return ⟨chain, now, totals⟩

/-- `max(key_ttl_seconds, math.ceil(claims.exp + RETENTION_AFTER_EXP_SECONDS - now))`; what is
left of claims does not overflow. -/
def Config.timeToLive (cfg : Config) (claims : CapabilityClaims) (now : ℚ) : ℤ :=
  max cfg.keyTtlSeconds ((secondsLeft claims.exp now).getD 0)

/-- The commands for one link; `member` is what `generate_jti` gives. -/
def Config.charge (cfg : Config) (member : Units) (now : ℚ) (claims : CapabilityClaims)
    (total : Decimal) : List Command :=
  [.hincrby (cfg.hashKey claims.jti) 1, .hset (cfg.hashKey claims.jti) (decimalText total),
    .zadd (cfg.zsetKey claims.jti) member now, .zremrangebyscore (cfg.zsetKey claims.jti) (now - 60),
    .expire (cfg.hashKey claims.jti) (cfg.timeToLive claims now),
    .expire (cfg.zsetKey claims.jti) (cfg.timeToLive claims now)]

/-- The commands of the transaction; a link's member is found by its token id. -/
def Commit.commands (cfg : Config) (member : Units → Units) (c : Commit) : List Command :=
  (c.chain.zip c.totals).flatMap fun p => cfg.charge (member p.1.jti) c.now p.1 p.2

/-- The checks before the retry loop, with the amount. -/
def validated (chain : List CapabilityClaims) (amount : Value) : Outcome Binary64 := do
  let x ← validatedAmount amount
  raiseIf (chain = [] ∨ ¬ (chain.map (·.jti)).Nodup)
    (constraintViolation [.text "Delegation token IDs must be distinct"] "max_calls")
  return x

/-! ## A call on its own -/

/-- A call of `check_and_record_chain`, its clock read, the server's time, and the random
members it adds. -/
structure Call where
  chain : List CapabilityClaims
  amount : Value
  now : ℚ
  serverTime : ℚ
  member : Units → Units

/-- `check_and_record_chain`, with no other client in between. -/
def checkAndRecordChain (cfg : Config) (c : Call) (s : State) : Except Failure Unit × State :=
  match validated c.chain c.amount with
  | .error e => (.error (.raised e), s)
  | .ok x =>
      match (attempt cfg c.chain x).run (fun k => live c.serverTime (s k)) c.now with
      | .error e => (.error e, s)
      | .ok charges =>
          let done := exec c.serverTime (charges.commands cfg c.member) s
          (if done.1 then .ok () else .error .wrongType, done.2)

end SwarmAuth.Python.RedisUsageTracker
