import SwarmAuth.Python.Budgets
import SwarmAuth.Lib.Optimistic
import SwarmAuth.Lib.Runs

/-!
# The shared ledger in Redis

`RedisBudgetUsageTracker` reserves the same records as `BudgetUsageTracker`, with the
ledger in Redis: an attempt watches the keys of its records, reads their entries, reads
the clock again and commits the entries that `_pending` gives. Clients interleave command
by command. Entries are kept as values, what `json.loads` makes of what `json.dumps`
wrote; no key expires.

## Main definitions

* `Ledger`, `Reservation`, `attempt`, `system` — the tracker's code.
* `Charge`, `onKey`, `fold` — committed charges on a key, and `_pending` folded over them.
* `reservations_serializable` — the ledger is that of the committed reservations, in order.
-/
namespace SwarmAuth.Python.RedisBudgetUsageTracker

open Optimistic Optimistic.Attempt BudgetUsageTracker

/-! ## The tracker -/

/-- What the clients share: rules, the key prefix, and `sha256(text.encode()).hexdigest()`. -/
structure Ledger extends Config where
  keyPrefix : List ℕ
  sha256 : List ℕ → List ℕ

/-- A call of `check_and_record_chain`, on a tracker that makes so many attempts. -/
structure Reservation where
  chain : List CapabilityClaims
  amount : Value
  maxRetries : ℕ := 64
  positive : 0 < maxRetries

/-- A stored entry, with the milliseconds it is kept for. -/
structure Stored where
  entry : Entry
  px : ℤ

/-- A key in Redis. -/
abbrev Key := List ℕ

/-- The key of a record's entry. -/
def Ledger.key (l : Ledger) (record : LedgerRecord) : Key := l.keyPrefix ++ l.sha256 record.key

/-- `json.loads(pipe.get(key) or "{}")`. -/
def entryOf (v : Option Stored) : Entry := (v.map Stored.entry).getD .missing

/-- What a transaction sets. -/
structure Commit where
  keys : List Key
  records : List LedgerRecord
  pending : List Entry
  now : ℚ
  amount : Binary64

/-- One pass of the retry loop, up to `pipe.multi()`. Both passes of `_records` give the
same records, so the zips are strict. -/
def attempt (l : Ledger) (chain : List CapabilityClaims) (amount : Binary64) :
    Attempt Key (Option Stored) PyError Commit := do
  let now ← clock
  let recs ← lift (records l.toConfig chain now)
  let keys := recs.map l.key
  watchAll keys
  let current ← keys.mapM read
  -- expiry is checked again after the network reads
  let now ← clock
  let recs ← lift (records l.toConfig chain now)
  let entries ← lift ((recs.zip current).mapM fun p => pending p.1 (entryOf p.2) now amount)
  return ⟨keys, recs, entries, now, amount⟩

/-- `max(1, math.ceil((record.expiry - now) * 1000))`: the expiry becomes a float. What is left
of a record does not overflow. -/
def timeToLive (record : LedgerRecord) (now : ℚ) : ℤ :=
  max 1 (((rounded record.expiry).bind fun expiry => millisLeft expiry now).getD 0)

/-- The `SET`s of the transaction. -/
def Commit.writes (c : Commit) : List (Key × (Option Stored → Option Stored)) :=
  (c.keys.zip (c.records.zip c.pending)).map fun p =>
    (p.1, fun _ => some ⟨p.2.2, timeToLive p.2.1 c.now⟩)

/-- Clients, each with a call of `check_and_record_chain`. -/
def system {C : Type} (l : Ledger) (calls : C → Reservation) :
    System C Key (Option Stored) PyError Commit where
  program c failed :=
    match validatedAmount (calls c).amount with
    | .error e => .raise e
    | .ok x =>
        if failed < (calls c).maxRetries then attempt l (calls c).chain x
        else .raise (deny "Shared budget contention exceeded retry limit")
  writes c _ := c.writes

/-- An empty database, and no client has started. -/
def start {C : Type} : World C Key (Option Stored) PyError Commit := { value := fun _ => none }

/-! ## Committed charges -/

/-- A record that was charged, when, and with which amount. -/
structure Charge where
  record : LedgerRecord
  now : ℚ
  amount : Binary64

/-- The charges of a commit. -/
def Commit.charges (c : Commit) : List Charge := c.records.map fun r => ⟨r, c.now, c.amount⟩

/-- The commits of a log, in the order of their `EXEC`s. -/
def commits {C : Type} (h : List (Event C Key (Option Stored) PyError Commit)) : List Commit :=
  h.filterMap fun e => e.result.toOption

/-- The charges on a key, in order. -/
def onKey (l : Ledger) (key : Key) (cs : List Commit) : List Charge :=
  (cs.flatMap Commit.charges).filter fun ch => l.key ch.record = key

/-- `_pending`, from one entry to the next. -/
def charge (current : Option Entry) (ch : Charge) : Outcome (Option Entry) :=
  some <$> pending ch.record (current.getD .missing) ch.now ch.amount

/-- `_pending` folded over charges, from a missing entry. -/
def fold (charges : List Charge) : Outcome (Option Entry) := charges.foldlM charge none

/-- What the charges on a key add up to with one more, within the limits of its record. -/
structure Within (before : List Charge) (ch : Charge) : Prop where
  calls : ∀ n, ch.record.calls = some n → (before.length : ℤ) + 1 ≤ n
  minor : ∀ m, ch.record.minorLimit = some m →
    ((before ++ [ch]).map fun c => c.record.minor).sum ≤ m
  usd : ∀ d, ch.record.usd = some d →
    ((before ++ [ch]).map fun c => (amountDecimal c.amount).value).sum ≤ (limitDecimal d).value
  rate : ∀ n, ch.record.rate = some n → ∃ e, fold before = .ok e ∧
    ((recentStamps (e.getD .missing).timestamps ch.now).length : ℤ) + 1 ≤ n

/-! ## Folding -/

theorem fold_snoc {before : List Charge} {ch : Charge} {r : Option Entry} :
    fold (before ++ [ch]) = .ok r ↔ ∃ e, fold before = .ok e ∧
      Allowed ch.record (e.getD .missing) ch.now ch.amount ∧
      r = some (ch.record.after (e.getD .missing) ch.now ch.amount) := by
  have hone : ∀ e, ([ch].foldlM charge e = .ok r ↔
      Allowed ch.record (e.getD .missing) ch.now ch.amount ∧
      r = some (ch.record.after (e.getD .missing) ch.now ch.amount)) := by
    intro e
    rw [List.foldlM_cons, bind_eq_ok]
    simp only [List.foldlM_nil, pure_eq_ok, exists_eq_right, charge]
    cases hp : pending ch.record (e.getD .missing) ch.now ch.amount with
    | error err =>
        simp only [Functor.map, Except.map, error_ne_ok, false_iff, not_and]
        intro hall
        have hok := pending_ok.mpr ⟨hall, rfl⟩
        exact absurd (hp.symm.trans hok) error_ne_ok
    | ok entry =>
        obtain ⟨hall, rfl⟩ := pending_ok.mp hp
        simp only [Functor.map, Except.map, Except.ok.injEq, hall, true_and]
        exact eq_comm
  rw [fold, List.foldlM_append, bind_eq_ok]
  simp only [hone]
  rfl

/-- What a fold counts. -/
structure Totals (charges : List Charge) (e : Entry) : Prop where
  calls : e.calls = charges.length
  minor : e.minor = (charges.map fun c => c.record.minor).sum
  fine : -340 ≤ e.usd.decimal.exp
  usd : min (charges.map fun c => (amountDecimal c.amount).value).sum exactBelow ≤ e.usd.decimal.value

/-- A charged entry counts the charge. -/
theorem Totals.after {charges : List Charge} {e : Entry} (h : Totals charges e) (ch : Charge) :
    Totals (charges ++ [ch]) (ch.record.after e ch.now ch.amount) where
  calls := by
    rw [List.length_append, ← h.calls]
    rfl
  minor := by
    rw [List.map_append, List.sum_append, ← h.minor, List.map_singleton, List.sum_singleton]
    rfl
  fine := le_exp_decimalText (le_exp_decimalSum h.fine ch.amount)
  usd := by
    have hnonneg := (amountDecimal ch.amount).value_nonneg
    have hspent := h.usd
    rw [List.map_append, List.sum_append, List.map_singleton, List.sum_singleton]
    show _ ≤ (decimalText (decimalSum e.usd.decimal ch.amount)).decimal.value
    rw [value_decimalText]
    refine le_trans (le_min ?_ (min_le_right _ _)) (min_le_value_decimalSum h.fine ch.amount)
    rcases min_le_iff.mp hspent with hsum | hcap
    · exact (min_le_left _ _).trans (by linarith)
    · exact (min_le_right _ _).trans (by linarith)

theorem totals_of_fold {charges : List Charge} {r : Option Entry} (h : fold charges = .ok r) :
    Totals charges (r.getD .missing) := by
  induction charges using List.reverseRecOn generalizing r with
  | nil =>
      obtain rfl := Except.ok.inj h
      exact ⟨rfl, rfl, by decide, (min_le_left _ _).trans (Decimal.value_nonneg _)⟩
  | append_singleton charges ch ih =>
      obtain ⟨e, he, -, rfl⟩ := fold_snoc.mp h
      exact (ih he).after ch

/-- **A fold that does not raise stays within every limit it meets.** -/
theorem within_of_fold {charges : List Charge} {r : Option Entry} (h : fold charges = .ok r)
    {before after : List Charge} {ch : Charge} (hsplit : charges = before ++ ch :: after) :
    Within before ch := by
  have hprefix : ∃ r', fold (before ++ [ch]) = .ok r' := by
    have hassoc : charges = (before ++ [ch]) ++ after := by simp [hsplit]
    rw [hassoc, fold, List.foldlM_append, bind_eq_ok] at h
    obtain ⟨r', hr', -⟩ := h
    exact ⟨r', hr'⟩
  obtain ⟨r', hr'⟩ := hprefix
  obtain ⟨e, he, hall, rfl⟩ := fold_snoc.mp hr'
  have hbefore := totals_of_fold he
  have htotals := totals_of_fold hr'
  refine ⟨?_, ?_, ?_, fun n hn => ⟨e, he, ?_⟩⟩
  · intro n hn
    rw [← hbefore.calls]
    exact hall.admits.calls n hn
  · intro m hm
    rw [← htotals.minor]
    exact hall.minor m hm
  · intro d hd
    have hlimit : (decimalSum (e.getD .missing).usd.decimal ch.amount).value ≤ (limitDecimal d).value :=
      hall.admits.amount _ (by simp [LedgerRecord.limits, limitsOf, hd])
    rw [← value_decimalText] at hlimit
    rcases min_le_iff.mp (htotals.usd.trans hlimit) with hsum | hcap
    · exact hsum
    · exact absurd (limitDecimal_lt d) (not_lt.mpr hcap)
  · have hrate := hall.admits.rate n hn
    rwa [List.countP_eq_length_filter] at hrate

/-! ## Attempts -/

section Attempts
variable {l : Ledger} {chain : List CapabilityClaims} {x : Binary64} {c : Commit}
  {value : Key → Option Stored}

/-- A commit of the chain, from these values. -/
structure Committed (l : Ledger) (chain : List CapabilityClaims) (x : Binary64)
    (value : Key → Option Stored) (c : Commit) : Prop where
  records : records l.toConfig chain c.now = .ok c.records
  amount : c.amount = x
  allowed : ∀ r ∈ c.records, Allowed r (entryOf (value (l.key r))) c.now x
  writes : c.writes = c.records.map fun r =>
    (l.key r, fun _ => some ⟨r.after (entryOf (value (l.key r))) c.now x, timeToLive r c.now⟩)

theorem eq_map_of_zip {α β : Type} {f : α → β} {as : List α} {bs : List β}
    (hlen : bs.length = as.length) (h : ∀ p ∈ as.zip bs, f p.1 = p.2) : bs = as.map f := by
  induction as generalizing bs with
  | nil => exact List.length_eq_zero_iff.mp hlen
  | cons a as ih =>
      cases bs with
      | nil => simp at hlen
      | cons b bs =>
          rw [List.zip_cons_cons, List.forall_mem_cons] at h
          rw [List.map_cons, h.1, ← ih (by simpa using hlen) h.2]

/-- **An attempt that has read the current values commits what `_pending` makes of them.** -/
theorem committed_of_ends {trace : List (Reply Key (Option Stored))}
    (hends : (attempt l chain x).Ends trace (.ok c))
    (hcurrent : ∀ k v, .got k v ∈ trace → value k = v) : Committed l chain x value c := by
  obtain ⟨now₁, _, _, rfl, -, hends⟩ := ends_bind_ok.mp hends
  obtain ⟨recs₁, _, _, rfl, hrecs₁, hends⟩ := ends_bind_ok.mp hends
  obtain ⟨_, _, _, rfl, -, hends⟩ := ends_bind_ok.mp hends
  obtain ⟨current, _, _, rfl, hread, hends⟩ := ends_bind_ok.mp hends
  obtain ⟨now, _, _, rfl, -, hends⟩ := ends_bind_ok.mp hends
  obtain ⟨recs, _, _, rfl, hrecs, hends⟩ := ends_bind_ok.mp hends
  obtain ⟨entries, _, _, rfl, hentries, hends⟩ := ends_bind_ok.mp hends
  obtain ⟨-, hc⟩ := ends_pure.mp hends
  obtain ⟨-, hrecs₁⟩ := ends_lift.mp hrecs₁
  obtain ⟨-, hrecs⟩ := ends_lift.mp hrecs
  obtain ⟨-, hentries⟩ := ends_lift.mp hentries
  obtain ⟨rfl, hlen⟩ := ends_mapM_read.mp hread
  obtain rfl := Except.ok.inj hc
  obtain rfl := (records_ok hrecs₁.symm).unique (records_ok hrecs.symm)
  -- the values read are those that are there
  have hvalues : current = (recs₁.map l.key).map value := by
    apply eq_map_of_zip hlen
    intro p hp
    apply hcurrent
    simp only [List.mem_append, List.mem_map]
    exact Or.inr (Or.inr (Or.inr (Or.inl ⟨p, hp, rfl⟩)))
  have hzip : recs₁.zip current = recs₁.map fun r => (r, value (l.key r)) := by
    rw [hvalues, List.map_map]
    conv_lhs => rw [← List.map_id recs₁, List.map_map, List.zip_map']
    rfl
  rw [hzip, eq_comm] at hentries
  obtain ⟨hallowed, hentries⟩ := (mapM_eq_ok (fun _ _ _ => pending_ok)).mp hentries
  refine ⟨hrecs.symm, rfl, ?_, ?_⟩
  · intro r hr
    exact hallowed _ (List.mem_map_of_mem hr)
  · simp only [Commit.writes, hentries, List.map_map]
    conv_lhs => rw [← List.map_id recs₁]
    simp only [List.map_map, List.zip_map']
    rfl

/-- **The clock that charges is read after the keys are watched.** -/
theorem fresh_of_ends {Fresh : Key → ℚ → Prop} {trace : List (Reply Key (Option Stored))}
    (hends : (attempt l chain x).Ends trace (.ok c))
    (hfresh : trace.Pairwise fun a b => ∀ now, b = .time now → ∀ p ∈ a.watched, Fresh p.1 now) :
    ∀ r ∈ c.records, Fresh (l.key r) c.now := by
  rw [attempt] at hends
  obtain ⟨now₁, _, _, rfl, -, h₁⟩ := ends_bind_ok.mp hends
  obtain ⟨recs₁, _, _, rfl, hrecs₁, h₂⟩ := ends_bind_ok.mp h₁
  obtain ⟨_, _, _, rfl, hwatch, h₃⟩ := ends_bind_ok.mp h₂
  obtain ⟨current, reads, _, rfl, -, h₄⟩ := ends_bind_ok.mp h₃
  obtain ⟨now, _, _, rfl, hclock, h₅⟩ := ends_bind_ok.mp h₄
  obtain ⟨recs, _, _, rfl, hrecs, h₆⟩ := ends_bind_ok.mp h₅
  obtain ⟨entries, _, _, rfl, -, h₇⟩ := ends_bind_ok.mp h₆
  have hc := Except.ok.inj (ends_pure.mp h₇).2
  have hrecs₁ := (ends_lift.mp hrecs₁).2.symm
  have hrecs := (ends_lift.mp hrecs).2.symm
  obtain ⟨versions, rfl, hversions, -⟩ := ends_watchAll.mp hwatch
  obtain ⟨now', rfl, hnow⟩ := ends_clock.mp hclock
  obtain rfl := Except.ok.inj hnow
  obtain rfl := (records_ok hrecs₁).unique (records_ok hrecs)
  subst hc
  intro r hr
  have hkey : l.key r ∈ versions.map Prod.fst := by
    rw [hversions]
    exact List.mem_map_of_mem hr
  obtain ⟨p, hp, hpk⟩ := List.mem_map.mp hkey
  rw [← hpk]
  have hafter := (List.pairwise_append.mp (List.pairwise_append.mp
    (List.pairwise_append.mp hfresh).2.1).2.1).2.2
  exact hafter (.watching versions) (List.mem_singleton_self _) (.time now) (by simp) now rfl p hp

/-- An attempt watches what it reads. -/
theorem guarded_attempt (l : Ledger) (chain : List CapabilityClaims) (x : Binary64) :
    (attempt l chain x).Guarded [] := by
  apply Guarded.bind guarded_clock
  intro now
  apply Guarded.bind (guarded_lift _)
  intro recs
  apply guarded_watchAll_bind
  apply Guarded.bind (guarded_mapM fun key hkey => guarded_read hkey)
  intro current
  apply Guarded.bind guarded_clock
  intro now
  apply Guarded.bind (guarded_lift _)
  intro recs
  apply Guarded.bind (guarded_lift _)
  intro entries
  trivial

end Attempts

/-! ## Runs -/

section Runs
variable {C : Type} {l : Ledger} {calls : C → Reservation}

/-- The entries a reservation may touch. -/
def ledgerKeys (chain : List CapabilityClaims) : List (List ℕ) :=
  chain.map (fun claims => ledgerKey "token" claims.jti) ++
    (chain.getLast?.bind fun leaf => leaf.constraints.sharedBudget.map (ledgerKey "budget")).toList

/-- No two of the entries a reservation may touch have one digest. -/
def Ledger.CollisionFree (l : Ledger) (chain : List CapabilityClaims) : Prop :=
  ∀ a ∈ ledgerKeys chain, ∀ b ∈ ledgerKeys chain, l.sha256 a = l.sha256 b → a = b

/-- The records of a reservation are among the entries it may touch. -/
theorem mem_ledgerKeys {cfg : Config} {chain : List CapabilityClaims} {now : ℚ}
    {recs : List LedgerRecord} (h : Recorded cfg chain now recs) {r : LedgerRecord} (hr : r ∈ recs) :
    r.key ∈ ledgerKeys chain := by
  have htoken : ∀ r ∈ chain.map tokenRecord, r.key ∈ ledgerKeys chain := by
    intro r hr
    obtain ⟨claims, hclaims, rfl⟩ := List.mem_map.mp hr
    exact List.mem_append_left _ (List.mem_map.mpr ⟨claims, hclaims, rfl⟩)
  obtain ⟨root, leaf, -, hleaf, ⟨-, rfl⟩ | ⟨rule, minor, hcharge, rfl⟩⟩ := h.budget
  · exact htoken r hr
  · rcases List.mem_append.mp hr with hr | hr
    · exact htoken r hr
    · rw [List.mem_singleton.mp hr]
      apply List.mem_append_right
      rw [hleaf, Option.bind_some, hcharge.declared]
      exact List.mem_singleton.mpr rfl

/-- The records of a reservation have distinct keys in Redis. -/
theorem keys_nodup {chain : List CapabilityClaims} {now : ℚ} {recs : List LedgerRecord}
    (hfree : l.CollisionFree chain) (h : Recorded l.toConfig chain now recs) :
    (recs.map l.key).Nodup := by
  have hinj : ∀ r ∈ recs, ∀ r' ∈ recs, l.key r = l.key r' → r.key = r'.key := by
    intro r hr r' hr' hkey
    exact hfree _ (mem_ledgerKeys h hr) _ (mem_ledgerKeys h hr') (List.append_cancel_left hkey)
  have hrecs : (recs.map LedgerRecord.key).Nodup := h.nodup
  rw [List.Nodup, List.pairwise_map] at hrecs ⊢
  apply hrecs.imp_of_mem
  intro r r' hr hr' hne hkey
  exact hne (hinj r hr r' hr' hkey)

/-- The commits of a client. -/
def commitsOf [DecidableEq C] (c : C) (h : List (Event C Key (Option Stored) PyError Commit)) :
    List Commit := commits (h.filter fun e => e.client = c)

/-- What holds after every run of interleaved reservations. -/
structure Serializable [DecidableEq C] (l : Ledger) (calls : C → Reservation)
    (w : World C Key (Option Stored) PyError Commit)
    (h : List (Event C Key (Option Stored) PyError Commit)) : Prop where
  /-- Each entry is `_pending` folded over the charges on its key, in order. -/
  folded : ∀ key, fold (onKey l key (commits h)) = .ok ((w.value key).map Stored.entry)
  /-- Each committed charge stayed within the limits of its record. -/
  within : ∀ key before ch after, onKey l key (commits h) = before ++ ch :: after → Within before ch
  /-- A call that returned has committed once, on all its records. -/
  returned : ∀ c commit, w.status c = .ended (.ok commit) → commitsOf c h = [commit] ∧
    records l.toConfig (calls c).chain commit.now = .ok commit.records ∧
    validatedAmount (calls c).amount = .ok commit.amount
  /-- A call that raised, or is not done, has committed nothing. -/
  raised : ∀ c, (∀ commit, w.status c ≠ .ended (.ok commit)) → commitsOf c h = []

/-- What an event's reservation has committed is what it asked for. -/
def Requested (l : Ledger) (calls : C → Reservation)
    (e : Event C Key (Option Stored) PyError Commit) : Prop :=
  ∀ commit, e.result = .ok commit →
    records l.toConfig (calls e.client).chain commit.now = .ok commit.records ∧
    validatedAmount (calls e.client).amount = .ok commit.amount

/-- The invariant of a run. -/
structure Inv [DecidableEq C] (l : Ledger) (calls : C → Reservation)
    (w : World C Key (Option Stored) PyError Commit)
    (h : List (Event C Key (Option Stored) PyError Commit)) : Prop where
  consistent : Consistent (system l calls) (fun _ _ => True) (fun _ _ => True) w
  logged : Logged w h
  folded : ∀ key, fold (onKey l key (commits h)) = .ok ((w.value key).map Stored.entry)
  requested : ∀ e ∈ h, Requested l calls e

theorem guarded_system (l : Ledger) (calls : C → Reservation) (c : C) (failed : ℕ) :
    ((system l calls).program c failed).Guarded [] := by
  simp only [system]
  split
  · trivial
  · split_ifs
    · exact guarded_attempt _ _ _
    · trivial

/-- An attempt of a client that commits is one of its reservation. -/
theorem committed_of_program {c : C} {failed : ℕ} {trace : List (Reply Key (Option Stored))}
    {commit : Commit} {value : Key → Option Stored}
    (hends : ((system l calls).program c failed).Ends trace (.ok commit))
    (hcurrent : ∀ k v, .got k v ∈ trace → value k = v) :
    ∃ x, validatedAmount (calls c).amount = .ok x ∧ Committed l (calls c).chain x value commit := by
  simp only [system] at hends
  split at hends
  · exact absurd hends.2 nofun
  · next x hx =>
      split_ifs at hends
      · exact ⟨x, hx, committed_of_ends hends hcurrent⟩
      · exact absurd hends.2 nofun

/-- The clock of a client that commits is read after its keys are watched. -/
theorem fresh_of_program {Fresh : Key → ℚ → Prop} {c : C} {failed : ℕ}
    {trace : List (Reply Key (Option Stored))} {commit : Commit}
    (hends : ((system l calls).program c failed).Ends trace (.ok commit))
    (hfresh : trace.Pairwise fun a b => ∀ now, b = .time now → ∀ p ∈ a.watched, Fresh p.1 now) :
    ∀ r ∈ commit.records, Fresh (l.key r) commit.now := by
  simp only [system] at hends
  split at hends
  · exact absurd hends.2 error_ne_ok.symm
  · split_ifs at hends
    · exact fresh_of_ends hends hfresh
    · exact absurd hends.2 error_ne_ok.symm

theorem commits_append (h h' : List (Event C Key (Option Stored) PyError Commit)) :
    commits (h ++ h') = commits h ++ commits h' := List.filterMap_append

theorem onKey_append (key : Key) (cs cs' : List Commit) :
    onKey l key (cs ++ cs') = onKey l key cs ++ onKey l key cs' := by
  rw [onKey, List.flatMap_append, List.filter_append]
  rfl

/-- **A commit keeps the fold of every key.** -/
theorem folded_commit {value value' : Key → Option Stored} {cs : List Commit} {commit : Commit}
    {chain : List CapabilityClaims} {x : Binary64} (hfree : l.CollisionFree chain)
    (hfold : ∀ key, fold (onKey l key cs) = .ok ((value key).map Stored.entry))
    (hcom : Committed l chain x value commit)
    (hvalue : value' = Store.modifyAll value commit.writes) (key : Key) :
    fold (onKey l key (cs ++ [commit])) = .ok ((value' key).map Stored.entry) := by
  have hnodup := keys_nodup hfree (records_ok hcom.records)
  have hone : onKey l key [commit] = (commit.records.filter fun r => l.key r = key).map
      fun r => ⟨r, commit.now, x⟩ := by
    rw [← hcom.amount]
    simp only [onKey, List.flatMap_cons, List.flatMap_nil, List.append_nil, Commit.charges,
      List.filter_map]
    rfl
  have hwrites : (commit.writes.filter fun w => w.1 = key) =
      (commit.records.filter fun r => l.key r = key).map fun r => (l.key r, fun _ =>
        some ⟨r.after (entryOf (value (l.key r))) commit.now x, timeToLive r commit.now⟩) := by
    rw [hcom.writes, List.filter_map]
    rfl
  rw [onKey_append, hone, hvalue, Store.modifyAll_apply, hwrites]
  by_cases hmem : ∃ r ∈ commit.records, l.key r = key
  · obtain ⟨r, hr, rfl⟩ := hmem
    -- the key is that of one record
    have hfilter : (commit.records.filter fun r' => l.key r' = l.key r) = [r] :=
      Store.filter_key_eq hnodup hr
    rw [hfilter, List.map_singleton, List.map_singleton, List.foldl_cons, List.foldl_nil,
      fold_snoc]
    exact ⟨_, hfold (l.key r), hcom.allowed r hr, rfl⟩
  · have hfilter : (commit.records.filter fun r => l.key r = key) = [] := by
      rw [List.filter_eq_nil_iff]
      intro r hr hk
      exact hmem ⟨r, hr, of_decide_eq_true hk⟩
    rw [hfilter, List.map_nil, List.map_nil, List.append_nil, List.foldl_nil]
    exact hfold key

variable [DecidableEq C] {w : World C Key (Option Stored) PyError Commit}
  {h : List (Event C Key (Option Stored) PyError Commit)}

/-- **Every step keeps the invariant.** -/
theorem Inv.step (hinv : Inv l calls w h) (hfree : ∀ c, l.CollisionFree (calls c).chain)
    (i : Action C Key × ℚ) :
    Inv l calls (Optimistic.step (system l calls) w i).2
      (h ++ (Optimistic.step (system l calls) w i).1.toList) := by
  obtain ⟨i, now⟩ := i
  have hsys := guarded_system l calls
  have heffect : Effect (system l calls) (fun _ _ => True) (fun _ _ => True) w now
      (Optimistic.step (system l calls) w (i, now)).1 (Optimistic.step (system l calls) w (i, now)).2 :=
    hinv.consistent.effect hsys (fun _ => trivial) i fun _ _ _ => trivial
  refine ⟨?_, ?_, ?_, ?_⟩
  · exact hinv.consistent.step hsys (fun _ => trivial) i (fun _ _ _ => trivial) rfl (fun _ _ _ => trivial)
      fun _ _ _ _ => trivial
  · exact hinv.logged.step hinv.consistent hsys (fun _ => trivial) i fun _ _ _ => trivial
  · intro key
    have hfold := hinv.folded
    generalize (Optimistic.step (system l calls) w (i, now)).1 = event at heffect ⊢
    generalize (Optimistic.step (system l calls) w (i, now)).2 = w' at heffect ⊢
    cases heffect with
    | quiet w' hvalue hversion =>
        rw [hvalue, Option.toList_none, List.append_nil]
        exact hfold key
    | raised w' hvalue hversion c failed trace e hends hseen =>
        rw [hvalue, commits_append, onKey_append]
        simpa [commits, onKey, Except.toOption] using hfold key
    | committed w' c failed trace a hends hcurrent hfresh hvalue hversion =>
        obtain ⟨x, -, hcom⟩ := committed_of_program hends hcurrent
        rw [commits_append]
        exact folded_commit (hfree c) hfold hcom hvalue key
    | lapsed w' k v hlapse hw' => exact absurd hlapse nofun
  · intro e he
    rcases List.mem_append.mp he with hold | hnew
    · exact hinv.requested e hold
    · rw [Option.mem_toList] at hnew
      intro commit hcommit
      generalize (Optimistic.step (system l calls) w (i, now)).1 = event at heffect hnew
      generalize (Optimistic.step (system l calls) w (i, now)).2 = w' at heffect
      cases heffect with
      | quiet w' hvalue hversion => exact absurd hnew nofun
      | raised w' hvalue hversion c failed trace e' hends hseen =>
          obtain rfl := Option.some.inj hnew
          exact absurd hcommit nofun
      | committed w' c failed trace a hends hcurrent hfresh hvalue hversion =>
          obtain rfl := Option.some.inj hnew
          obtain rfl := Except.ok.inj hcommit
          obtain ⟨x, hx, hcom⟩ := committed_of_program hends hcurrent
          exact ⟨hcom.records, by rw [hcom.amount]; exact hx⟩
      | lapsed w' k v hlapse hw' => exact absurd hnew nofun

theorem Inv.init (l : Ledger) (calls : C → Reservation) : Inv l calls start [] where
  consistent := .init _ _ _ _
  logged := .init _
  folded _ := rfl
  requested _ he := absurd he List.not_mem_nil

theorem Inv.serializable (hinv : Inv l calls w h) : Serializable l calls w h where
  folded := hinv.folded
  within key _ _ _ hsplit := within_of_fold (hinv.folded key) hsplit
  returned c commit hstatus := by
    have hlog := hinv.logged c
    rw [hstatus] at hlog
    obtain ⟨trace, htrace⟩ := hlog
    have hmem : (⟨c, trace, .ok commit⟩ : Event C Key (Option Stored) PyError Commit) ∈ h := by
      apply List.mem_of_mem_filter (p := fun e => e.client = c)
      rw [htrace]
      exact List.mem_singleton.mpr rfl
    refine ⟨?_, hinv.requested _ hmem commit rfl⟩
    rw [commitsOf, htrace]
    rfl
  raised c hstatus := by
    have hlog := hinv.logged c
    cases hc : w.status c with
    | idle =>
        rw [hc] at hlog
        rw [commitsOf, hlog]
        rfl
    | running failed trace rest =>
        rw [hc] at hlog
        rw [commitsOf, hlog]
        rfl
    | ended r =>
        rw [hc] at hlog
        obtain ⟨trace, htrace⟩ := hlog
        rw [commitsOf, htrace]
        cases r with
        | error e => rfl
        | ok commit => exact absurd hc (hstatus commit)

/-- **Reservations are serializable.** However the clients' commands interleave, every
ledger entry is `_pending` folded over the reservations that committed, in the order of
their `EXEC`s; a call that returns has committed once, on all its token and budget keys, and a
call that raises on none. -/
theorem reservations_serializable (l : Ledger) (calls : C → Reservation)
    (hfree : ∀ c, l.CollisionFree (calls c).chain) (actions : List (Action C Key × ℚ)) :
    Serializable l calls (Runs.final (Optimistic.step (system l calls)) start actions)
      (Runs.log (Optimistic.step (system l calls)) start actions) := by
  have hclock : (actions.map fun _ => (0 : ℚ)).Pairwise (· ≤ ·) := by simp
  have hrun := Runs.log_invariant (fun _ w h => Inv l calls w h)
    (fun _ _ _ i hinv _ _ => hinv.step hfree i) (fun _ => .init l calls) actions
    (Runs.along_true (Optimistic.step (system l calls)) start actions) hclock
  exact hrun.serializable

/-- No budgets; the digest is SHA-256's on the key of the sample token. -/
def sampleLedger : Ledger where
  rules := []
  requireBudget := false
  unique := List.nodup_nil
  keyPrefix := "swarmauth:ledger:".toList.map Char.toNat
  sha256 text :=
    if text = ledgerKey "token" "j1" then
      "0a457c7195454d2f8a66bd3a0182bd208c7bacc145c5c3f535d9b55eb299e6ea".toList.map Char.toNat
    else text

/-- Two clients reserve the token for one call. -/
def sampleCalls (_ : Bool) : Reservation :=
  { chain := [sampleOnce], amount := .scalar (.int 0), positive := by decide }

/-- One client watches and reads, the other commits, the first is aborted and tries again. -/
def sampleActions : List (Action Bool Key × ℚ) :=
  [true, true, true, true, false, false, false, false, false, false, true, true, true, true, true,
    true].map fun c => (.client c, 1001)

set_option maxRecDepth 100000 in
theorem reservations_serializable_sample :
    Serializable sampleLedger sampleCalls
      (Runs.final (Optimistic.step (system sampleLedger sampleCalls)) start sampleActions)
      (Runs.log (Optimistic.step (system sampleLedger sampleCalls)) start sampleActions) ∧
    (Runs.log (Optimistic.step (system sampleLedger sampleCalls)) start sampleActions).map
      (fun e => (e.client, e.result.toOption.isSome)) = [(false, true), (true, false)] := by
  have hfree : ∀ c, sampleLedger.CollisionFree (sampleCalls c).chain := by
    intro c a ha b hb _
    have hone : ledgerKeys (sampleCalls c).chain = [ledgerKey "token" "j1"] := rfl
    rw [hone, List.mem_singleton] at ha hb
    rw [ha, hb]
  exact ⟨reservations_serializable sampleLedger sampleCalls hfree sampleActions, by decide +kernel⟩

end Runs

end SwarmAuth.Python.RedisBudgetUsageTracker
