import SwarmAuth.Node.Budgets
import SwarmAuth.Lib.Optimistic

/-!
# The shared ledger in Redis, from Node

`RedisUsageTracker` of `redis.js` reserves the records of `BudgetUsageTracker`, with the
ledger in Redis: an attempt watches the keys of its records, reads their entries, reads the
clock again and sets the entries that `pending` gives. Entries are kept as values, what
`JSON.parse` makes of what `JSON.stringify` wrote; a time to live is exact.

## Main definitions

* `Ledger`, `Reservation`, `attempt`, `program` — the tracker's code.
* `Recorded` — what `records` establishes of a chain.
* `Committed`, `committed_of_ends` — what an attempt has checked when it commits.
-/
namespace SwarmAuth.Node

open Js

namespace BudgetUsageTracker

/-! ## Records -/

/-- What `records` establishes of the budget it charges. -/
structure BudgetCharge (cfg : Config) (leaf : Claims) (now : ℚ) (rule : BudgetRule)
    (minor : Double) : Prop where
  declared : leaf.constraints.sharedBudget.bind cfg.rule? = some rule
  live : reached rule.expiresAt now = false
  minor : minor = (numberOf (leaf.constraints.allowedParams.get "amount_minor")).getD .nan

/-- What `records` establishes of a chain: its tokens are live, and it comes with the record
of its budget unless none is declared or needed. -/
structure Recorded (cfg : Config) (chain : List Claims) (now : ℚ) (recs : List LedgerRecord) :
    Prop where
  distinct : (chain.map (·.jti)).Nodup
  live : ∀ claims ∈ chain, reached (plus claims.exp (.ofInt 3)) now = false
  budget : ∃ leaf, chain.getLast? = some leaf ∧
    ((leaf.constraints.sharedBudget = none ∧ recs = chain.map tokenRecord) ∨
      ∃ rule minor, BudgetCharge cfg leaf now rule minor ∧
        recs = chain.map tokenRecord ++ [rule.record minor])

theorem liveTokenRecord_ok {now : ℚ} {claims : Claims} {r : LedgerRecord} :
    liveTokenRecord now claims = .ok r ↔
      reached (plus claims.exp (.ofInt 3)) now = false ∧ r = tokenRecord claims := by
  rw [liveTokenRecord, raiseIf_bind_eq_ok, pure_eq_ok, Bool.not_eq_true, eq_comm (a := r)]

theorem budgetRecord_ok {cfg : Config} {root leaf : Claims} {now : ℚ} {r : LedgerRecord}
    (h : budgetRecord cfg root leaf now = .ok r) :
    ∃ rule minor, BudgetCharge cfg leaf now rule minor ∧ r = rule.record minor := by
  obtain ⟨rule, hrule, h⟩ := bind_eq_ok.mp h
  obtain ⟨-, h⟩ := raiseIf_bind_eq_ok.mp h
  obtain ⟨hlive, h⟩ := raiseIf_bind_eq_ok.mp h
  obtain ⟨-, h⟩ := raiseIf_bind_eq_ok.mp h
  obtain ⟨-, h⟩ := raiseIf_bind_eq_ok.mp h
  rw [orRaise_eq_ok] at hrule
  exact ⟨rule, _, ⟨hrule, Bool.eq_false_iff.mpr hlive, rfl⟩, (pure_eq_ok.mp h).symm⟩

theorem records_ok {cfg : Config} {chain : List Claims} {now : ℚ} {recs : List LedgerRecord}
    (h : records cfg chain now = .ok recs) : Recorded cfg chain now recs := by
  obtain ⟨hchain, h⟩ := raiseIf_bind_eq_ok.mp h
  obtain ⟨tokens, htokens, h⟩ := bind_eq_ok.mp h
  obtain ⟨hlive, rfl⟩ := (mapM_eq_ok fun _ _ _ => liveTokenRecord_ok).mp htokens
  rw [not_or, not_not] at hchain
  refine ⟨hchain.2, hlive, ?_⟩
  obtain ⟨root, hroot⟩ := Option.ne_none_iff_exists'.mp (mt List.head?_eq_none_iff.mp hchain.1)
  obtain ⟨leaf, hleaf⟩ := Option.ne_none_iff_exists'.mp (mt List.getLast?_eq_none_iff.mp hchain.1)
  refine ⟨leaf, hleaf, ?_⟩
  rw [hroot, hleaf] at h
  by_cases hnone : leaf.constraints.sharedBudget = none ∧ cfg.requireBudget = false
  · simp only [if_pos hnone, pure_eq_ok] at h
    exact Or.inl ⟨hnone.1, h.symm⟩
  · simp only [if_neg hnone] at h
    obtain ⟨r, hr, h⟩ := bind_eq_ok.mp h
    obtain ⟨rule, minor, hcharge, rfl⟩ := budgetRecord_ok hr
    exact Or.inr ⟨rule, minor, hcharge, (pure_eq_ok.mp h).symm⟩

section Recorded
variable {cfg : Config} {chain : List Claims} {now now' : ℚ} {recs recs' : List LedgerRecord}

/-- The records of a chain do not depend on the clock. -/
theorem Recorded.unique (h : Recorded cfg chain now recs) (h' : Recorded cfg chain now' recs') :
    recs = recs' := by
  obtain ⟨leaf, hleaf, hcase⟩ := h.budget
  obtain ⟨leaf', hleaf', hcase'⟩ := h'.budget
  obtain rfl := Option.some.inj (hleaf.symm.trans hleaf')
  have hdeclared : ∀ rule minor now, BudgetCharge cfg leaf now rule minor →
      leaf.constraints.sharedBudget ≠ none := by
    intro rule minor now hcharge hnone
    have hsome := hcharge.declared
    rw [hnone] at hsome
    exact absurd hsome (Option.some_ne_none rule).symm
  rcases hcase with ⟨hnone, rfl⟩ | ⟨rule, minor, hcharge, rfl⟩
  · rcases hcase' with ⟨-, rfl⟩ | ⟨rule', minor', hcharge', -⟩
    · rfl
    · exact absurd hnone (hdeclared rule' minor' now' hcharge')
  · rcases hcase' with ⟨hnone, -⟩ | ⟨rule', minor', hcharge', rfl⟩
    · exact absurd hnone (hdeclared rule minor now hcharge)
    · obtain rfl := Option.some.inj (hcharge.declared.symm.trans hcharge'.declared)
      rw [hcharge.minor, hcharge'.minor]

/-- The records of a chain are live when they are made. -/
theorem Recorded.not_reached (h : Recorded cfg chain now recs) {r : LedgerRecord} (hr : r ∈ recs) :
    reached r.expiry now = false := by
  obtain ⟨leaf, -, ⟨-, rfl⟩ | ⟨rule, minor, hcharge, rfl⟩⟩ := h.budget
  · obtain ⟨claims, hclaims, rfl⟩ := List.mem_map.mp hr
    exact h.live claims hclaims
  · rcases List.mem_append.mp hr with hr | hr
    · obtain ⟨claims, hclaims, rfl⟩ := List.mem_map.mp hr
      exact h.live claims hclaims
    · rw [List.mem_singleton.mp hr]
      exact hcharge.live

end Recorded

end BudgetUsageTracker

namespace RedisUsageTracker
open Optimistic Optimistic.Attempt BudgetUsageTracker

/-! ## The tracker -/

/-- What the clients share: rules, the key prefix, and
`createHash("sha256").update(text).digest("hex")`. -/
structure Ledger extends Config where
  keyPrefix : List ℕ
  sha256 : Units → List ℕ

/-- A call of `checkAndRecordChain`, on a tracker that makes so many attempts. -/
structure Reservation where
  chain : List Claims
  amount : Double
  maxRetries : ℕ := 64
  positive : 0 < maxRetries

/-- A stored entry, with the milliseconds it is kept for. -/
structure Stored where
  entry : Entry
  px : ℤ

/-- A key in Redis. -/
abbrev Key := List ℕ

/-- The key of a record's entry. -/
def Ledger.key (l : Ledger) (record : LedgerRecord) : Key := l.keyPrefix ++ l.sha256 record.key

/-- `JSON.parse(current[index] ?? "{}")`. -/
def entryOf (v : Option Stored) : Entry := (v.map Stored.entry).getD .missing

/-- What a transaction sets. -/
structure Commit where
  keys : List Key
  records : List LedgerRecord
  pending : List Entry
  now : ℚ
  amount : Double

/-- One pass of the retry loop, up to `transaction.exec()`. Both passes of `records` give the
same records, so an index is in range. -/
def attempt (l : Ledger) (chain : List Claims) (amount : Double) :
    Attempt Key (Option Stored) Thrown Commit := do
  let now ← clock
  let recs ← lift (records l.toConfig chain now)
  let keys := recs.map l.key
  watchAll keys
  let current ← keys.mapM read
  let now ← clock
  let recs ← lift (records l.toConfig chain now)
  let entries ← lift ((recs.zip current).mapM fun p => pending p.1 (entryOf p.2) now amount)
  return ⟨keys, recs, entries, now, amount⟩

/-- `Math.max(1, Math.ceil((record.expiry - now) * 1000))`; what is left of a record does not
overflow. -/
def timeToLive (record : LedgerRecord) (now : ℚ) : ℤ :=
  max 1 ((record.expiry.value?.bind fun expiry => millisLeft expiry now).getD 0)

/-- The `SET`s of the transaction. -/
def Commit.writes (c : Commit) : List (Key × Stored) :=
  (c.keys.zip (c.records.zip c.pending)).map fun p => (p.1, ⟨p.2.2, timeToLive p.2.1 c.now⟩)

/-- `checkAndRecordChain`: the attempt after so many aborted ones. -/
def program (l : Ledger) (r : Reservation) (failed : ℕ) :
    Attempt Key (Option Stored) Thrown Commit :=
  if !isFinite r.amount || lessThan r.amount (.ofInt 0) then .raise (deny "Invalid amount")
  else if failed < r.maxRetries then attempt l r.chain r.amount
  else .raise (deny "Shared ledger contention exceeded retry limit")

/-! ## Attempts -/

section Attempts
variable {l : Ledger} {chain : List Claims} {amount : Double} {c : Commit}
  {value : Key → Option Stored}

/-- What one entry becomes. -/
structure Charged (l : Ledger) (value : Key → Option Stored) (now : ℚ) (amount : Double)
    (r : LedgerRecord) (w : Key × Stored) : Prop where
  key : w.1 = l.key r
  entry : pending r (entryOf (value (l.key r))) now amount = .ok w.2.entry
  px : w.2.px = timeToLive r now

/-- A commit of the chain, from these values. -/
structure Committed (l : Ledger) (chain : List Claims) (amount : Double)
    (value : Key → Option Stored) (c : Commit) : Prop where
  records : records l.toConfig chain c.now = .ok c.records
  charged : List.Forall₂ (Charged l value c.now amount) c.records c.writes
  amount : c.amount = amount

/-- Reading keys one after another reads the values there. -/
theorem eq_map_of_ends_reads {keys : List Key} {vs : List (Option Stored)}
    {trace part : List (Optimistic.Reply Key (Option Stored))}
    (hends : (keys.mapM read : Attempt Key (Option Stored) Thrown _).Ends part (.ok vs))
    (hpart : part ⊆ trace) (hcurrent : ∀ k v, .got k v ∈ trace → value k = v) :
    vs = keys.map value := by
  have hvs : List.Forall₂ (fun k v => value k = v) keys vs := by
    refine forall₂_of_ends_mapM (fun k _ v rest hrest hread => ?_) hends
    obtain ⟨v', rfl, hv⟩ := ends_read.mp hread
    rw [Except.ok.inj hv]
    exact hcurrent k v' (hpart (hrest (List.mem_singleton_self _)))
  clear hends
  induction hvs with
  | nil => rfl
  | cons h _ ih => rw [List.map_cons, h, ← ih]

/-- A check made on each record. -/
theorem forall₂_of_mapM {α β : Type} {f : α → Outcome β} {l : List α} {out : List β}
    (h : l.mapM f = .ok out) : List.Forall₂ (fun a b => f a = .ok b) l out := by
  induction l generalizing out with
  | nil =>
      rw [List.mapM_nil, pure_eq_ok] at h
      rw [← h]
      exact .nil
  | cons a l ih =>
      rw [List.mapM_cons] at h
      obtain ⟨b, hb, h⟩ := bind_eq_ok.mp h
      obtain ⟨bs, hbs, h⟩ := bind_eq_ok.mp h
      rw [← pure_eq_ok.mp h]
      exact .cons hb (ih hbs)

/-- Each record is written with what `pending` makes of its value. -/
theorem charged_writes {now : ℚ} {recs : List LedgerRecord} {entries : List Entry}
    (h : List.Forall₂ (fun p entry => pending p.1 (entryOf p.2) now amount = .ok entry)
      (recs.zip (recs.map (value ∘ l.key))) entries) :
    List.Forall₂ (Charged l value now amount) recs
      (Commit.writes ⟨recs.map l.key, recs, entries, now, amount⟩) := by
  induction recs generalizing entries with
  | nil => exact .nil
  | cons r recs ih =>
      rw [List.map_cons, List.zip_cons_cons] at h
      cases h with
      | cons hone hrest => exact .cons ⟨rfl, hone, rfl⟩ (ih hrest)

/-- **An attempt that has read the current values commits what `pending` makes of them**, at
a clock read after its watches. -/
theorem committed_of_ends {Fresh : Key → ℚ → Prop} {trace : List (Optimistic.Reply Key (Option Stored))}
    (hends : (attempt l chain amount).Ends trace (.ok c))
    (hcurrent : ∀ k v, .got k v ∈ trace → value k = v)
    (hfresh : trace.Pairwise fun a b => ∀ now, b = .time now → ∀ p ∈ a.watched, Fresh p.1 now) :
    Committed l chain amount value c ∧ ∀ r ∈ c.records, Fresh (l.key r) c.now := by
  rw [attempt] at hends
  obtain ⟨now₁, _, _, rfl, -, h₁⟩ := ends_bind_ok.mp hends
  obtain ⟨recs₁, _, _, rfl, hrecs₁, h₂⟩ := ends_bind_ok.mp h₁
  obtain ⟨_, _, _, rfl, hwatch, h₃⟩ := ends_bind_ok.mp h₂
  obtain ⟨current, reads, _, rfl, hread, h₄⟩ := ends_bind_ok.mp h₃
  obtain ⟨now, _, _, rfl, hclock, h₅⟩ := ends_bind_ok.mp h₄
  obtain ⟨recs, _, _, rfl, hrecs, h₆⟩ := ends_bind_ok.mp h₅
  obtain ⟨entries, _, _, rfl, hentries, h₇⟩ := ends_bind_ok.mp h₆
  have hc := Except.ok.inj (ends_pure.mp h₇).2
  have hrecs₁ := (ends_lift.mp hrecs₁).2.symm
  have hrecs := (ends_lift.mp hrecs).2.symm
  have hentries := (ends_lift.mp hentries).2.symm
  obtain ⟨versions, rfl, hversions, -⟩ := ends_watchAll.mp hwatch
  obtain ⟨now', rfl, hnow⟩ := ends_clock.mp hclock
  obtain rfl := Except.ok.inj hnow
  obtain rfl := (records_ok hrecs₁).unique (records_ok hrecs)
  have hvalues : current = (recs₁.map l.key).map value := by
    apply eq_map_of_ends_reads hread _ hcurrent
    intro r hr
    simp only [List.mem_append]
    tauto
  subst hc
  have hpending := forall₂_of_mapM hentries
  refine ⟨⟨hrecs, ?_, rfl⟩, ?_⟩
  · rw [hvalues, List.map_map] at hpending
    exact charged_writes hpending
  · intro r hr
    have hkey : l.key r ∈ versions.map Prod.fst := by
      rw [hversions]
      exact List.mem_map_of_mem hr
    obtain ⟨p, hp, hpk⟩ := List.mem_map.mp hkey
    rw [← hpk]
    -- the second clock read comes after the watch
    have hafter := (List.pairwise_append.mp (List.pairwise_append.mp
      (List.pairwise_append.mp hfresh).2.1).2.1).2.2
    exact hafter (.watching versions) (List.mem_singleton_self _) (.time now)
      (by simp) now rfl p hp

/-- An attempt watches what it reads. -/
theorem guarded_program (l : Ledger) (r : Reservation) (failed : ℕ) :
    (program l r failed).Guarded [] := by
  rw [program]
  split_ifs
  · trivial
  · rw [attempt]
    apply Guarded.bind guarded_clock
    intro now
    apply Guarded.bind (guarded_lift _)
    intro recs
    apply guarded_watchAll_bind
    apply Guarded.bind (guarded_mapM fun key hkey => guarded_read hkey)
    intro current
    apply Guarded.bind guarded_clock
    intro now
    apply Guarded.bind (guarded_lift _)
    intro recs
    apply Guarded.bind (guarded_lift _)
    intro entries
    trivial
  · trivial

/-- A client that commits has checked its amount and gone through an attempt. -/
theorem attempt_of_program {r : Reservation} {failed : ℕ} {trace : List (Optimistic.Reply Key (Option Stored))}
    (hends : (program l r failed).Ends trace (.ok c)) :
    (isFinite r.amount = true ∧ lessThan r.amount (.ofInt 0) = false) ∧
      (attempt l r.chain r.amount).Ends trace (.ok c) := by
  rw [program] at hends
  split_ifs at hends with hamount hfailed
  · exact absurd hends.2 error_ne_ok.symm
  · rw [Bool.or_eq_true, not_or, Bool.not_eq_true', Bool.not_eq_false, Bool.not_eq_true] at hamount
    exact ⟨hamount, hends⟩
  · exact absurd hends.2 error_ne_ok.symm

end Attempts

/-! ## Keys -/

/-- What a reservation may touch, by kind and id. -/
def ledgerIds (chain : List Claims) : List (String × Units) :=
  chain.map (fun claims => ("token", claims.jti)) ++
    (chain.getLast?.bind fun leaf => leaf.constraints.sharedBudget.map (Prod.mk "budget")).toList

/-- No two of the records a reservation may touch have one digest. -/
def Ledger.CollisionFree (l : Ledger) (chain : List Claims) : Prop :=
  ∀ a ∈ ledgerIds chain, ∀ b ∈ ledgerIds chain,
    l.sha256 (ledgerKey a.1 a.2) = l.sha256 (ledgerKey b.1 b.2) → a = b

/-- The records of a reservation have distinct keys in Redis. -/
theorem keys_nodup {l : Ledger} {chain : List Claims} {now : ℚ} {recs : List LedgerRecord}
    (hfree : l.CollisionFree chain) (h : Recorded l.toConfig chain now recs) :
    (recs.map l.key).Nodup := by
  have hinj : ∀ a ∈ ledgerIds chain, ∀ b ∈ ledgerIds chain,
      l.keyPrefix ++ l.sha256 (ledgerKey a.1 a.2) = l.keyPrefix ++ l.sha256 (ledgerKey b.1 b.2) →
        a = b :=
    fun a ha b hb hkey => hfree a ha b hb (List.append_cancel_left hkey)
  have htokens : (chain.map fun claims => (("token", claims.jti) : String × Units)).Nodup := by
    have hmap := h.distinct.map (f := Prod.mk "token") fun _ _ heq => (Prod.mk.inj heq).2
    rwa [List.map_map] at hmap
  have hkeys : (((chain.map fun claims => (("token", claims.jti) : String × Units)).map fun a =>
      l.keyPrefix ++ l.sha256 (ledgerKey a.1 a.2))).Nodup :=
    htokens.map_on fun a ha b hb hkey =>
      hinj a (List.mem_append_left _ ha) b (List.mem_append_left _ hb) hkey
  rw [List.map_map] at hkeys
  obtain ⟨leaf, hleaf, ⟨-, rfl⟩ | ⟨rule, minor, hcharge, rfl⟩⟩ := h.budget
  · rw [List.map_map]
    exact hkeys
  · obtain ⟨id, hid, hrule⟩ := Option.bind_eq_some_iff.mp hcharge.declared
    have hrid : rule.id = id := by simpa using List.find?_some hrule
    have hbudget : (("budget", rule.id) : String × Units) ∈ ledgerIds chain := by
      apply List.mem_append_right
      rw [hleaf, Option.bind_some, hid, hrid]
      exact List.mem_singleton_self _
    rw [List.map_append, List.map_map, List.nodup_append]
    refine ⟨hkeys, List.nodup_singleton _, ?_⟩
    intro a ha b hb heq
    obtain ⟨claims, hclaims, rfl⟩ := List.mem_map.mp ha
    rw [List.mem_singleton.mp hb] at heq
    have htoken : (("token", claims.jti) : String × Units) ∈ ledgerIds chain :=
      List.mem_append_left _ (List.mem_map.mpr ⟨claims, hclaims, rfl⟩)
    have hsame := hinj _ htoken _ hbudget heq
    exact absurd (Prod.mk.inj hsame).1 (by decide)

end RedisUsageTracker

end SwarmAuth.Node
