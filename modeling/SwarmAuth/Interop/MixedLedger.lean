import SwarmAuth.Interop.SharedLedger
import SwarmAuth.Node.RedisLedger
import SwarmAuth.Node.Signed
import SwarmAuth.Python.BudgetRuns

/-!
# One ledger, two runtimes

Clients in Python and in Node share the ledger in Redis: under a key is the entry the last of
them wrote, with the deadline it set, and the server drops it from then on. Requests of all
clients interleave. Each reads what the other runtime wrote as its own entry of the same
counters, so that the reservations on a key respect the limits of its record, whichever
runtime made them.

## Main definitions

* `Fleet`, `Reservation`, `Commit`, `system` — the shared store and its clients.
* `Policy`, `Steady` — the limits of a record, and a key that is always charged under them.
* `Kept` — what an entry says, to either runtime, of the charges on its key.
* `Books`, `Books.commit`, `Books.lapse` — what the server owes.
* `fleet_within_limits` — **no interleaving of the two runtimes passes a limit**.
-/
namespace SwarmAuth.Interop.MixedLedger

open Optimistic Optimistic.Attempt
open Allowance (Covers Charged Respects)
open Python (maxSafe exactBelow chargeOf decimalSum)
open Python.BudgetUsageTracker (decimalText)

/-! ## The store -/

/-- An entry as the runtime that set it wrote it, until its deadline. -/
inductive Written where
  | python (entry : Python.BudgetUsageTracker.Entry) (deadline : ℚ)
  | node (entry : Node.BudgetUsageTracker.Entry) (deadline : ℚ)

/-- When an entry expires. -/
def Written.deadline : Written → ℚ
  | python _ deadline | node _ deadline => deadline

/-- A key in Redis. -/
abbrev Key := List ℕ

/-- What the clients share. `other` is what Python makes of an entry of Node's whose counters
are no integers. -/
structure Fleet where
  pythonConfig : Python.BudgetUsageTracker.Config
  nodeConfig : Node.BudgetUsageTracker.Config
  keyPrefix : List ℕ
  sha256 : Bytes → Bytes
  other : Node.BudgetUsageTracker.Entry → Python.BudgetUsageTracker.Entry

/-- The ledger of Python's clients. -/
def Fleet.python (f : Fleet) : Python.RedisBudgetUsageTracker.Ledger where
  toConfig := f.pythonConfig
  keyPrefix := f.keyPrefix
  sha256 text := hexdigest (f.sha256 (utf8Encode text))

/-- The ledger of Node's clients. -/
def Fleet.node (f : Fleet) : Node.RedisUsageTracker.Ledger where
  toConfig := f.nodeConfig
  keyPrefix := f.keyPrefix
  sha256 text := hexdigest (f.sha256 (updateOctets text))

/-- What Python loads. -/
def Fleet.pythonEntry (f : Fleet) : Option Written → Python.BudgetUsageTracker.Entry
  | none => .missing
  | some (.python p _) => p
  | some (.node n _) => (loaded n).getD (f.other n)

/-- What Node parses. -/
def nodeEntry : Option Written → Node.BudgetUsageTracker.Entry
  | none => .missing
  | some (.python p _) => parsed p
  | some (.node n _) => n

/-- What Python's clients see; they do not ask for the time to live. -/
def Fleet.seenByPython (f : Fleet) (v : Option Written) : Option Python.RedisBudgetUsageTracker.Stored :=
  v.map fun _ => ⟨f.pythonEntry v, 0⟩

/-- What Node's clients see; they do not ask for the time to live. -/
def seenByNode (v : Option Written) : Option Node.RedisUsageTracker.Stored :=
  v.map fun _ => ⟨nodeEntry v, 0⟩

/-! ## The clients -/

/-- A call of `check_and_record_chain` or of `checkAndRecordChain`. -/
inductive Reservation where
  | python (r : Python.RedisBudgetUsageTracker.Reservation)
  | node (r : Node.RedisUsageTracker.Reservation)

/-- What a client raises. -/
inductive Failure where
  | python (e : Python.PyError)
  | node (e : Js.Thrown)

/-- What a client commits. -/
inductive Commit where
  | python (c : Python.RedisBudgetUsageTracker.Commit)
  | node (c : Node.RedisUsageTracker.Commit)

/-- The entries a commit sets, by key. -/
def Commit.written (time : ℚ) : Commit → List (Key × Option Written)
  | .python c => c.writes.map fun w =>
      (w.1, (w.2 none).map fun s => .python s.entry (time + s.px / 1000))
  | .node c => c.writes.map fun w => (w.1, some (.node w.2.entry (time + w.2.px / 1000)))

variable {C : Type}

/-- The clients. An entry goes at a time of the server's choice from its deadline on. -/
def system (f : Fleet) (calls : C → Reservation) :
    System C Key (Option Written) Failure Commit where
  program c failed :=
    match calls c with
    | .python r =>
        ((Python.RedisBudgetUsageTracker.system f.python fun _ : Unit => r).program () failed).adapt
          f.seenByPython .python .python
    | .node r => (Node.RedisUsageTracker.program f.node r failed).adapt seenByNode .node .node
  writes c time := (c.written time).map fun w => (w.1, fun _ => w.2)
  lapse _ time v := if v.any fun w => w.deadline ≤ time then some none else none

/-- An empty database, and no client has started. -/
def start : World C Key (Option Written) Failure Commit := { value := fun _ => none }

/-! ## Charges -/

/-- The record of Node's in Python's integers. -/
def exactRecord (s : Node.BudgetUsageTracker.LedgerRecord) : Python.BudgetUsageTracker.LedgerRecord where
  key := []
  expiry := (Js.intOf s.expiry).getD 0
  calls := s.maxCalls.bind Js.intOf
  usd := s.maxUsd
  rate := s.rate.bind Js.intOf
  minorLimit := s.minorLimit.bind Js.intOf
  minor := (Js.intOf s.minor).getD 0

/-- An amount of Python's. -/
def ofMag (x : Binary64) : Amount :=
  ⟨.finite false x, decide_eq_true x.value_nonneg⟩

/-- A number as an amount; zero if it is none. -/
def ofNumber (d : Double) : Amount :=
  if h : Python.nonNegative d = true then ⟨d, h⟩ else ofMag .zero

/-- A record that was charged, when, and with which amount. -/
structure Charge where
  record : Python.BudgetUsageTracker.LedgerRecord
  now : ℚ
  amount : Amount

/-- A charge as the limits see it. -/
def Charge.toAllowance (ch : Charge) : Allowance.Charge := chargeOf ch.amount.mag ch.now

/-- The charges of a commit, by key. -/
def Commit.charges (f : Fleet) : Commit → List (Key × Charge)
  | .python c => c.records.map fun r => (f.python.key r, ⟨r, c.now, ofMag c.amount⟩)
  | .node c => c.records.map fun s =>
      (f.node.key s, ⟨exactRecord s, c.now, ofNumber c.amount⟩)

/-- What has been committed, in order. -/
def commits (h : List (Event C Key (Option Written) Failure Commit)) : List Commit :=
  h.filterMap fun e => e.result.toOption

/-- The charges on a key, in order. -/
def onKey (f : Fleet) (k : Key) (cs : List Commit) : List Charge :=
  ((cs.flatMap (Commit.charges f)).filter fun p => p.1 = k).map Prod.snd

/-- The limits of a record, and until when it may be charged. -/
structure Policy where
  limits : Allowance.Limits
  minorLimit : Option ℤ
  expiry : ℤ

/-- The policy of a record. -/
def policyOf (r : Python.BudgetUsageTracker.LedgerRecord) : Policy := ⟨r.limits, r.minorLimit, r.expiry⟩

/-- Whatever record a reservation charges under this key has this policy. -/
def Reservation.Under (f : Fleet) (k : Key) (P : Policy) : Reservation → Prop
  | .python r => ∀ now recs, Python.BudgetUsageTracker.records f.pythonConfig r.chain now = .ok recs →
      ∀ rec ∈ recs, f.python.key rec = k → policyOf rec = P
  | .node r => ∀ now recs, Node.BudgetUsageTracker.records f.nodeConfig r.chain now = .ok recs →
      ∀ rec ∈ recs, f.node.key rec = k → policyOf (exactRecord rec) = P

/-- A clock may yet read a time before the expiry. -/
def Policy.Chargeable (P : Policy) (now : ℚ) : Prop :=
  ∃ read : Binary64, now ≤ read.value ∧ read.value < P.expiry

/-- All clients charge the key under one policy. The expiry is a number, and it is no further
from the first clock read than that is from the epoch. -/
structure Steady (f : Fleet) (calls : C → Reservation) (since : ℚ) (k : Key) (P : Policy) : Prop where
  under : ∀ c, (calls c).Under f k P
  exact : P.expiry ≠ 2 ^ 53 + 1
  near : (P.expiry : ℚ) ≤ 2 * since

/-- The records of a reservation have keys of their own, and Node has parsed its tokens. -/
def Reservation.WellFormed (f : Fleet) : Reservation → Prop
  | .python r => f.python.CollisionFree r.chain
  | .node r => f.node.CollisionFree r.chain ∧ ∀ c ∈ r.chain, Node.Presented c

/-! ## Node's records in integers -/

section Exact
variable {s : Node.BudgetUsageTracker.LedgerRecord}

theorem bind_intOf {k : Option ℤ} {d : Option Double} (h : Option.Rel SameNumber k d) :
    d.bind Js.intOf = k := by
  cases h with
  | none => rfl
  | some hk => exact Js.intOf_value hk

/-- A record of Node's that has a counterpart has its exact one. -/
theorem sameLimits_exact {r : Python.BudgetUsageTracker.LedgerRecord} (h : SameLimits r s) :
    SameLimits (exactRecord s) s := by
  have hcalls : (exactRecord s).calls = r.calls := bind_intOf h.calls
  have hrate : (exactRecord s).rate = r.rate := bind_intOf h.rate
  have hlimit : (exactRecord s).minorLimit = r.minorLimit := bind_intOf h.minorLimit
  have hminor : (exactRecord s).minor = r.minor := by
    simp only [exactRecord, Js.intOf_value h.minor, Option.getD_some]
  refine ⟨hcalls ▸ h.calls, ?_, hrate ▸ h.rate, hlimit ▸ h.minorLimit, hminor ▸ h.minor,
    hminor ▸ h.minor_range, ?_, ?_⟩
  · have husd := h.usd
    simp only [exactRecord]
    generalize r.usd = pusd at husd
    generalize s.maxUsd = nusd at husd ⊢
    cases husd with
    | none => exact .none
    | some hd =>
        refine .some ⟨rfl, ?_⟩
        rw [Python.nonNegative, hd.1]
        exact hd.2
  · rw [hlimit, hminor]
    exact h.unlimited
  · rw [hlimit]
    exact h.limit_range

/-- Node's records expire at integers. -/
theorem exists_expiry {cfg : Node.BudgetUsageTracker.Config} {chain : List Node.Claims} {now : ℚ}
    {recs : List Node.BudgetUsageTracker.LedgerRecord} (hchain : ∀ c ∈ chain, Node.Presented c)
    (h : Node.BudgetUsageTracker.records cfg chain now = .ok recs) (hs : s ∈ recs) :
    SameNumber (exactRecord s).expiry s.expiry ∧ (exactRecord s).expiry ≤ 2 ^ 53 + 2 := by
  have hexact : ∀ k : ℤ, k ≤ 2 ^ 53 + 2 → SameNumber k s.expiry →
      SameNumber (exactRecord s).expiry s.expiry ∧ (exactRecord s).expiry ≤ 2 ^ 53 + 2 := by
    intro k hbound hk
    simp only [exactRecord, Js.intOf_value hk, Option.getD_some]
    exact ⟨hk, hbound⟩
  rcases mem_node_records h hs with ⟨c, hc, rfl⟩ | ⟨rule, minor, -, rfl⟩
  · obtain ⟨k, hk, hsafe⟩ := Js.exists_int_of_safe ((hchain c hc).safe_exp)
    by_cases hlast : k = 2 ^ 53 - 2
    · subst hlast
      apply hexact (2 ^ 53) (by norm_num)
      have hthree : SameNumber 3 (.ofInt 3) := .ofInt (by norm_num)
      have hsum : SameNumber (2 ^ 53) (Js.plus c.exp (.ofInt 3)) := by
        rw [SameNumber, Js.plus, hk, hthree]
        decide +kernel
      exact hsum
    · rw [abs_lt] at hsafe
      refine hexact (k + 3) (by omega) (SameNumber.retention hk ?_ hlast)
      rw [Python.maxSafe, abs_le]
      omega
  · have hv := rule.valid
    simp only [Node.BudgetUsageTracker.RuleFields.valid, Bool.and_eq_true,
      Node.BudgetUsageTracker.positive, Node.BudgetUsageTracker.safe] at hv
    obtain ⟨k, hk, hsafe⟩ := Js.exists_int_of_safe hv.1.2.1.1
    rw [abs_lt] at hsafe
    exact hexact k (by omega) hk

/-- A finite number that is not negative is an amount. -/
theorem number_ofNumber {d : Double} (hfinite : Js.isFinite d = true)
    (hle : Js.lessThan d (.ofInt 0) = false) : (ofNumber d).number = d := by
  have hzero : (Double.ofInt 0).value? = some 0 := by decide +kernel
  have hvalid : Python.nonNegative d = true := by
    cases d with
    | finite neg mag =>
        rw [Js.lessThan_value rfl hzero, decide_eq_false_iff_not, not_lt] at hle
        rw [Python.nonNegative, Double.value?, Option.any_some, decide_eq_true_eq]
        exact hle
    | inf neg => cases hfinite
    | nan => cases hfinite
  rw [ofNumber, dif_pos hvalid]

end Exact

/-! ## What an entry says -/

section Kept
variable {f : Fleet} {P : Policy} {t t' : ℚ} {charges : List Charge} {v v' : Option Written}

/-- To either runtime the entry counts these charges, as far as the limits ask from `t` on. -/
structure Kept (f : Fleet) (P : Policy) (t : ℚ) (charges : List Charge) (v : Option Written) :
    Prop where
  holds : Holds (charges.map Charge.amount) (f.pythonEntry v) (nodeEntry v)
  fine : -340 ≤ (f.pythonEntry v).usd.decimal.exp
  minor : (f.pythonEntry v).minor = (charges.map fun ch => ch.record.minor).sum
  covers : Covers 60 exactBelow P.limits t (f.pythonEntry v).record (charges.map Charge.toAllowance)

/-- The charges stay within the policy. -/
structure Policy.Within (P : Policy) (charges : List Charge) : Prop where
  respects : Respects 60 P.limits (charges.map Charge.toAllowance)
  minor : ∀ m, P.minorLimit = some m → (charges.map fun ch => ch.record.minor).sum ≤ m

theorem Kept.nil (f : Fleet) (P : Policy) (t : ℚ) : Kept f P t [] none where
  holds := holds_missing
  fine := (by decide : (-340 : ℤ) ≤ (Layout.decimal ⟨[48], [], none⟩).exp)
  minor := rfl
  covers := .nil (Decimal.value_nonneg _)

theorem Kept.later (h : Kept f P t charges v) (ht : t ≤ t') : Kept f P t' charges v where
  holds := h.holds
  fine := h.fine
  minor := h.minor
  covers := h.covers.retain ht .refl

/-- An entry with one more charge has it on its record. -/
theorem charged_after {e : Python.BudgetUsageTracker.Entry} (r : Python.BudgetUsageTracker.LedgerRecord)
    (x : Binary64) (now : ℚ) (hfine : -340 ≤ e.usd.decimal.exp) :
    Charged 60 exactBelow r.limits (chargeOf x now) e.record (r.after e now x).record where
  calls := le_rfl
  spent := Python.BudgetUsageTracker.min_le_spent_after r hfine
  stamps hrate u hu := by
    have hsome : r.rate.isSome = true := Option.isSome_iff_ne_none.mpr hrate
    have hkeep : (Python.recentStamps e.timestamps now).countP (fun s => u ≤ s) =
        e.timestamps.countP fun s => u ≤ s := Python.countP_recentStamps hu
    simp only [Python.BudgetUsageTracker.Entry.record, Python.BudgetUsageTracker.LedgerRecord.after,
      hsome, if_true, List.countP_append, hkeep, List.countP_singleton, decide_eq_true_eq]
    exact le_rfl

/-- **A charge that the checks allow stays within the policy, and the entry counts it.** -/
theorem Kept.charge (ch : Charge) (h : Kept f P ch.now charges v) (hP : policyOf ch.record = P)
    (hallowed : Python.BudgetUsageTracker.Allowed ch.record (f.pythonEntry v) ch.now ch.amount.mag)
    (hafter : f.pythonEntry v' = ch.record.after (f.pythonEntry v) ch.now ch.amount.mag)
    (hholds : Holds (charges.map Charge.amount ++ [ch.amount]) (f.pythonEntry v') (nodeEntry v')) :
    Kept f P ch.now (charges ++ [ch]) v' ∧
      ((charges ≠ [] → P.Within charges) → P.Within (charges ++ [ch])) := by
  subst hP
  have hcharged := charged_after ch.record ch.amount.mag ch.now h.fine
  have hnonneg := Python.chargeOf_nonneg ch.amount.mag ch.now
  refine ⟨⟨?_, ?_, ?_, ?_⟩, fun hwithin => ⟨?_, ?_⟩⟩
  · rw [List.map_append]
    exact hholds
  · rw [hafter]
    exact Python.BudgetUsageTracker.le_exp_decimalText (Python.le_exp_decimalSum h.fine ch.amount.mag)
  · rw [hafter, List.map_append, List.sum_append, ← h.minor, List.map_singleton, List.sum_singleton]
    rfl
  · rw [hafter, List.map_append]
    exact h.covers.snoc le_rfl hcharged hnonneg
  · have hadmits := hallowed.admits
    rw [← Python.BudgetUsageTracker.value_decimalText] at hadmits
    have hrespects : Respects 60 ch.record.limits (charges.map Charge.toAllowance) := by
      by_cases hnil : charges = []
      · rw [hnil]
        exact .nil (hadmits.nonNeg (Decimal.value_nonneg _))
      · exact (hwithin hnil).respects
    rw [List.map_append]
    refine hrespects.snoc h.covers le_rfl hcharged hadmits ?_ hnonneg
    · intro m hm
      obtain ⟨d, -, rfl⟩ := Option.map_eq_some_iff.mp hm
      exact Python.limitDecimal_lt d
  · intro m hm
    rw [List.map_append, List.sum_append, ← h.minor]
    simpa using hallowed.minor m hm

/-- Python loads an entry of Node's that holds the charges. -/
theorem loaded_of_holds {amounts : List Amount} {p : Python.BudgetUsageTracker.Entry}
    {n : Node.BudgetUsageTracker.Entry} (h : Holds amounts p n) (hlen : amounts.length ≤ 2 ^ 53)
    (hexp : SameNumber p.expiry n.expiry) : loaded n = some p := by
  have hkept := kept amounts (lt_of_le_pow53 hlen)
  have husd : layoutOf n.usd = p.usd := by
    rw [h.usd, h.total]
    exact layoutOf_text hkept.canonical.toValid hkept.canonical.no_exponent
  rw [Interop.loaded, Js.intOf_value h.calls, Js.intOf_value h.minor, Js.intOf_value hexp]
  simp only [Option.bind_eq_bind, Option.bind_some, husd, h.timestamps, Int.toNat_natCast]

theorem mag_ofMag (x : Binary64) : (ofMag x).mag = x := rfl

/-- **A reservation of Python's**, on an entry of either runtime. -/
theorem Kept.python {cfg : Python.BudgetUsageTracker.Config} {chain : List Python.CapabilityClaims}
    {recs : List Python.BudgetUsageTracker.LedgerRecord} {r : Python.BudgetUsageTracker.LedgerRecord}
    {x : Binary64} {now : ℚ} (h : Kept f P now charges v) (hP : policyOf r = P)
    (hlen : charges.length < 2 ^ 53)
    (hrecs : Python.BudgetUsageTracker.records cfg chain now = .ok recs) (hr : r ∈ recs)
    (hallowed : Python.BudgetUsageTracker.Allowed r (f.pythonEntry v) now x) (deadline : ℚ) :
    Kept f P now (charges ++ [⟨r, now, ofMag x⟩])
        (some (.python (r.after (f.pythonEntry v) now x) deadline)) ∧
      ((charges ≠ [] → P.Within charges) → P.Within (charges ++ [⟨r, now, ofMag x⟩])) := by
  have hlength : (charges.map Charge.amount).length < 2 ^ 53 := by rwa [List.length_map]
  have hlast : (charges.map Charge.amount ++ [ofMag x]).length ≤ 2 ^ 53 := by
    rw [List.length_append, List.length_singleton]
    exact hlength
  obtain ⟨s, hlimits⟩ := exists_node_limits hrecs hr
  have hstep := pending_agrees (ofMag x) now hlimits h.holds hlength
  have hpending := Python.BudgetUsageTracker.pending_ok.mpr ⟨hallowed, rfl⟩
  rw [mag_ofMag, hpending] at hstep
  obtain ⟨n', -, hholds, -⟩ := hstep.of_python
  exact h.charge ⟨r, now, ofMag x⟩ hP hallowed rfl (hholds.parsed hlast)

/-- **A reservation of Node's**, on an entry of either runtime. -/
theorem Kept.node {cfg : Node.BudgetUsageTracker.Config} {chain : List Node.Claims}
    {recs : List Node.BudgetUsageTracker.LedgerRecord} {s : Node.BudgetUsageTracker.LedgerRecord}
    {d : Double} {now : ℚ} {n' : Node.BudgetUsageTracker.Entry} (h : Kept f P now charges v)
    (hP : policyOf (exactRecord s) = P) (hlen : charges.length < 2 ^ 53)
    (hchain : ∀ c ∈ chain, Node.Presented c)
    (hrecs : Node.BudgetUsageTracker.records cfg chain now = .ok recs) (hs : s ∈ recs)
    (hnumber : (ofNumber d).number = d)
    (hpending : Node.BudgetUsageTracker.pending s (nodeEntry v) now d = .ok n') (deadline : ℚ) :
    Kept f P now (charges ++ [⟨exactRecord s, now, ofNumber d⟩]) (some (.node n' deadline)) ∧
      ((charges ≠ [] → P.Within charges) → P.Within (charges ++ [⟨exactRecord s, now, ofNumber d⟩])) := by
  have hlength : (charges.map Charge.amount).length < 2 ^ 53 := by rwa [List.length_map]
  have hlast : (charges.map Charge.amount ++ [ofNumber d]).length ≤ 2 ^ 53 := by
    rw [List.length_append, List.length_singleton]
    exact hlength
  obtain ⟨r, hr⟩ := exists_python_limits hchain hrecs hs
  have hstep := pending_agrees (ofNumber d) now (sameLimits_exact hr) h.holds hlength
  rw [hnumber, hpending] at hstep
  obtain ⟨p', hok, hholds, hp, hn⟩ := hstep.of_node
  obtain ⟨hallowed, rfl⟩ := Python.BudgetUsageTracker.pending_ok.mp hok
  have hexpiry : SameNumber ((exactRecord s).after (f.pythonEntry v) now (ofNumber d).mag).expiry
      n'.expiry := by
    rw [hp, hn]
    exact (exists_expiry hchain hrecs hs).1
  have hload := loaded_of_holds hholds hlast hexpiry
  have hentry : f.pythonEntry (some (.node n' deadline)) =
      (exactRecord s).after (f.pythonEntry v) now (ofNumber d).mag := by
    rw [Fleet.pythonEntry, hload, Option.getD_some]
  refine h.charge ⟨exactRecord s, now, ofNumber d⟩ hP hallowed hentry ?_
  rw [hentry]
  exact hholds

end Kept

/-! ## What a commit does -/

/-- What a commit does under one key. -/
structure Step where
  key : Key
  charge : Charge
  written : Written

/-- Whatever time before `expiry` a clock reads, the entry is still there. -/
def Written.Outlasts (e : Written) (expiry : ℤ) : Prop :=
  ∀ read : Binary64, read.value < expiry → read.value < e.deadline

/-- A charge that is made while its record lives, and an entry that counts it and outlasts
its record. -/
structure Step.Sound (f : Fleet) (value : Key → Option Written) (time : ℚ) (s : Step) : Prop where
  live : s.charge.now < s.charge.record.expiry
  lasts : ∀ start : Binary64, start.value = s.charge.now → s.charge.record.expiry ≠ 2 ^ 53 + 1 →
    (s.charge.record.expiry : ℚ) ≤ 2 * start.value → start.value ≤ time →
    s.written.Outlasts s.charge.record.expiry
  kept : ∀ P charges, policyOf s.charge.record = P → charges.length < 2 ^ 53 →
    Kept f P s.charge.now charges (value s.key) →
    Kept f P s.charge.now (charges ++ [s.charge]) (some s.written) ∧
      ((charges ≠ [] → P.Within charges) → P.Within (charges ++ [s.charge]))

/-- What a client's commit does under each of its keys. -/
structure Steps (f : Fleet) (r : Reservation) (value : Key → Option Written) (time : ℚ) (c : Commit)
    (steps : List Step) : Prop where
  written : c.written time = steps.map fun s => (s.key, some s.written)
  charges : c.charges f = steps.map fun s => (s.key, s.charge)
  distinct : (steps.map Step.key).Nodup
  sound : ∀ s ∈ steps, s.Sound f value time
  policy : ∀ k P, r.Under f k P → ∀ s ∈ steps, s.key = k → policyOf s.charge.record = P

section Commits
variable {f : Fleet} {value : Key → Option Written} {time : ℚ}

theorem entryOf_python (v : Option Written) :
    Python.RedisBudgetUsageTracker.entryOf (f.seenByPython v) = f.pythonEntry v := by
  cases v <;> rfl

theorem entryOf_node (v : Option Written) :
    Node.RedisUsageTracker.entryOf (seenByNode v) = nodeEntry v := by
  cases v <;> rfl

/-- **An entry kept for what remains** outlasts its record. -/
theorem outlasts_millisLeft {expiry : ℤ} {start read : Binary64} (hsafe : expiry ≤ 2 ^ 53 + 2)
    (hexact : expiry ≠ 2 ^ 53 + 1) (hlive : start.value < expiry)
    (hnear : (expiry : ℚ) ≤ 2 * start.value) (hnow : start.value ≤ time) (hread : read.value < expiry) :
    read.value < time + ((max 1 ((millisLeft expiry start.value).getD 0) : ℤ) : ℚ) / 1000 := by
  obtain ⟨millis, hmillis, hreach⟩ := Binary64.lt_add_millisLeft hsafe hexact hlive hnear
  rw [hmillis, Option.getD_some]
  have hmax : (millis : ℚ) ≤ ((max 1 millis : ℤ) : ℚ) := by exact_mod_cast le_max_right 1 millis
  have hdiv : (millis : ℚ) / 1000 ≤ ((max 1 millis : ℤ) : ℚ) / 1000 := by gcongr
  linarith [hreach read hread]

/-- Python's records are live when they are made, and expire at safe integers or close to them. -/
theorem expiry_of_recorded {cfg : Python.BudgetUsageTracker.Config}
    {chain : List Python.CapabilityClaims} {now : ℚ}
    {recs : List Python.BudgetUsageTracker.LedgerRecord}
    (h : Python.BudgetUsageTracker.Recorded cfg chain now recs)
    {r : Python.BudgetUsageTracker.LedgerRecord} (hr : r ∈ recs) :
    now < r.expiry ∧ r.expiry ≤ 2 ^ 53 + 2 := by
  have htoken : ∀ r ∈ chain.map Python.BudgetUsageTracker.tokenRecord,
      now < r.expiry ∧ r.expiry ≤ 2 ^ 53 + 2 := by
    intro r hr
    obtain ⟨claims, hclaims, rfl⟩ := List.mem_map.mp hr
    refine ⟨h.live claims hclaims, ?_⟩
    have hsafe := claims.abs_exp_le
    rw [maxSafe, abs_le] at hsafe
    have hthree : Python.retentionAfterExpSeconds = 3 := rfl
    simp only [Python.BudgetUsageTracker.tokenRecord]
    omega
  obtain ⟨root, leaf, -, -, ⟨-, rfl⟩ | ⟨rule, minor, hcharge, rfl⟩⟩ := h.budget
  · exact htoken r hr
  · rcases List.mem_append.mp hr with hr | hr
    · exact htoken r hr
    · rw [List.mem_singleton.mp hr]
      have hvalid := rule.valid
      simp only [Python.BudgetUsageTracker.RuleFields.valid, Bool.and_eq_true, decide_eq_true_eq]
        at hvalid
      have hsafe : rule.expiresAt ≤ maxSafe := hvalid.1.2.2
      rw [maxSafe] at hsafe
      refine ⟨hcharge.live, ?_⟩
      simp only [Python.BudgetUsageTracker.BudgetRule.record]
      omega

/-- **What a commit of Python's does.** -/
theorem exists_steps_python (time : ℚ) {r : Python.RedisBudgetUsageTracker.Reservation} {x : Binary64}
    {c : Python.RedisBudgetUsageTracker.Commit} (hr : (Reservation.python r).WellFormed f)
    (hcom : Python.RedisBudgetUsageTracker.Committed f.python r.chain x
      (fun k => f.seenByPython (value k)) c) :
    ∃ steps, Steps f (.python r) value time (.python c) steps := by
  have hrecords := hcom.records
  have hrecorded := Python.BudgetUsageTracker.records_ok hrecords
  refine ⟨c.records.map fun rec => ⟨f.python.key rec, ⟨rec, c.now, ofMag x⟩,
    .python (rec.after (f.pythonEntry (value (f.python.key rec))) c.now x)
      (time + (Python.RedisBudgetUsageTracker.timeToLive rec c.now : ℚ) / 1000)⟩, ?_, ?_, ?_, ?_, ?_⟩
  · rw [Commit.written, hcom.writes, List.map_map, List.map_map]
    simp only [Function.comp_def, Option.map_some, entryOf_python]
  · rw [Commit.charges, hcom.amount, List.map_map]
    rfl
  · rw [List.map_map]
    exact Python.RedisBudgetUsageTracker.keys_nodup hr hrecorded
  · intro s hs
    obtain ⟨rec, hrec, rfl⟩ := List.mem_map.mp hs
    obtain ⟨hlive, hsafe⟩ := expiry_of_recorded hrecorded hrec
    refine ⟨hlive, ?_, ?_⟩
    · intro start hstart hexact hnear hnow read hread
      simp only at hstart hlive hexact hnear hread
      rw [← hstart] at hlive
      have hpos : (0 : ℚ) < rec.expiry := start.value_nonneg.trans_lt hlive
      have hexpiry := rounded_intCast (by exact_mod_cast hpos.le) hsafe hexact
      simp only [Written.deadline, Python.RedisBudgetUsageTracker.timeToLive, hexpiry,
        Option.bind_some, ← hstart]
      exact outlasts_millisLeft hsafe hexact hlive hnear hnow hread
    intro P charges hP hlen hkept
    have hallowed := hcom.allowed rec hrec
    rw [entryOf_python] at hallowed
    exact hkept.python hP hlen hrecords hrec hallowed _
  · intro k P hunder s hs hk
    obtain ⟨rec, hrec, rfl⟩ := List.mem_map.mp hs
    exact hunder c.now c.records hrecords rec hrec hk

/-- **What a commit of Node's does.** -/
theorem exists_steps_node (time : ℚ) {r : Node.RedisUsageTracker.Reservation}
    {c : Node.RedisUsageTracker.Commit} (hr : (Reservation.node r).WellFormed f)
    (hnumber : (ofNumber r.amount).number = r.amount)
    (hcom : Node.RedisUsageTracker.Committed f.node r.chain r.amount
      (fun k => seenByNode (value k)) c) :
    ∃ steps, Steps f (.node r) value time (.node c) steps := by
  have hrecords := hcom.records
  have hrecorded := Node.BudgetUsageTracker.records_ok hrecords
  have hlen := hcom.charged.length_eq
  have hzip : ∀ p ∈ c.records.zip c.writes, Node.RedisUsageTracker.Charged f.node
      (fun k => seenByNode (value k)) c.now r.amount p.1 p.2 :=
    fun _ hp => (List.forall₂_iff_zip.mp hcom.charged).2 hp
  refine ⟨(c.records.zip c.writes).map fun p => ⟨p.2.1, ⟨exactRecord p.1, c.now, ofNumber r.amount⟩,
    .node p.2.2.entry (time + (p.2.2.px : ℚ) / 1000)⟩, ?_, ?_, ?_, ?_, ?_⟩
  · rw [Commit.written, List.map_map]
    have hwrites : c.writes = (c.records.zip c.writes).map Prod.snd := by
      rw [List.map_snd_zip hlen.ge]
    conv_lhs => rw [hwrites]
    rw [List.map_map]
    rfl
  · rw [Commit.charges, hcom.amount, List.map_map]
    have hrecs : c.records = (c.records.zip c.writes).map Prod.fst := by
      rw [List.map_fst_zip hlen.le]
    conv_lhs => rw [hrecs]
    rw [List.map_map]
    apply List.map_congr_left
    intro p hp
    simp only [Function.comp_apply, (hzip p hp).key]
  · have hkeys : ((c.records.zip c.writes).map fun p => p.2.1) = c.records.map f.node.key := by
      have hrecs : c.records = (c.records.zip c.writes).map Prod.fst := by
        rw [List.map_fst_zip hlen.le]
      conv_rhs => rw [hrecs]
      rw [List.map_map]
      apply List.map_congr_left
      intro p hp
      exact (hzip p hp).key
    rw [List.map_map]
    exact hkeys ▸ Node.RedisUsageTracker.keys_nodup hr.1 hrecorded
  · intro s hs
    obtain ⟨p, hp, rfl⟩ := List.mem_map.mp hs
    have hcharged := hzip p hp
    have hmem : p.1 ∈ c.records := (List.of_mem_zip hp).1
    obtain ⟨hexpiry, hsafe⟩ := exists_expiry hr.2 hrecords hmem
    have hlive : c.now < (exactRecord p.1).expiry := by
      have hreached := hrecorded.not_reached hmem
      by_contra hle
      rw [(hexpiry.reached c.now).mpr (not_lt.mp hle)] at hreached
      exact absurd hreached (by decide)
    refine ⟨hlive, ?_, ?_⟩
    · intro start hstart hexact hnear hnow read hread
      simp only at hstart
      have hpx := hcharged.px
      rw [Node.RedisUsageTracker.timeToLive, hexpiry, Option.bind_some, ← hstart] at hpx
      simp only [Written.deadline, hpx]
      rw [← hstart] at hlive
      exact outlasts_millisLeft hsafe hexact hlive hnear hnow hread
    · intro P charges hP hcount hkept
      have hpending := hcharged.entry
      rw [entryOf_node, ← hcharged.key] at hpending
      exact hkept.node hP hcount hr.2 hrecords hmem hnumber hpending _
  · intro k P hunder s hs hk
    obtain ⟨p, hp, rfl⟩ := List.mem_map.mp hs
    exact hunder c.now c.records hrecords p.1 (List.of_mem_zip hp).1 ((hzip p hp).key.symm.trans hk)

/-- The commands of a commit. -/
theorem Steps.commands {r : Reservation} {c : Commit} {steps : List Step}
    (hs : Steps f r value time c steps) :
    ((c.written time).map fun w => ((w.1, fun _ => w.2) : Key × (Option Written → Option Written))) =
      steps.map fun s => (s.key, fun _ => some s.written) := by
  rw [hs.written, List.map_map]
  rfl

/-- **A key is charged by one step of a commit, or by none.** -/
theorem Steps.cases {r : Reservation} {c : Commit} {steps : List Step}
    (hs : Steps f r value time c steps) (k : Key) :
    ((∀ s ∈ steps, s.key ≠ k) ∧ onKey f k [c] = [] ∧
      Store.modifyAll value ((c.written time).map fun w => (w.1, fun _ => w.2)) k = value k) ∨
    ∃ s ∈ steps, s.key = k ∧ onKey f k [c] = [s.charge] ∧
      Store.modifyAll value ((c.written time).map fun w => (w.1, fun _ => w.2)) k = some s.written := by
  have hone : onKey f k [c] = (steps.filter fun s => s.key = k).map Step.charge := by
    simp only [onKey, List.flatMap_cons, List.flatMap_nil, List.append_nil, hs.charges,
      List.filter_map, List.map_map]
    rfl
  rw [Store.modifyAll_apply, hs.commands, List.filter_map, hone]
  by_cases hmem : ∃ s ∈ steps, s.key = k
  · obtain ⟨s, hmem, rfl⟩ := hmem
    have hfilter : (steps.filter fun s' => s'.key = s.key) = [s] :=
      Store.filter_key_eq hs.distinct hmem
    refine Or.inr ⟨s, hmem, rfl, ?_, ?_⟩
    · rw [hfilter]
      rfl
    · simp only [Function.comp_def, hfilter]
      rfl
  · have hfilter : (steps.filter fun s => s.key = k) = [] := by
      rw [List.filter_eq_nil_iff]
      intro s hs hk
      exact hmem ⟨s, hs, of_decide_eq_true hk⟩
    refine Or.inl ⟨fun s hs hk => hmem ⟨s, hs, hk⟩, ?_, ?_⟩
    · rw [hfilter]
      rfl
    · simp only [Function.comp_def, hfilter]
      rfl

end Commits

/-! ## What the server owes -/

/-- At a clock read a key tells what has been charged on it, if its record lives. -/
structure Tells (f : Fleet) (calls : C → Reservation) (since now : ℚ) (value : Key → Option Written)
    (cs : List Commit) (k : Key) (t : ℚ) : Prop where
  past : t ≤ now
  started : since ≤ t
  read : ∃ read : Binary64, read.value = t
  told : ∀ P, Steady f calls since k P → P.Chargeable t → (onKey f k cs).length ≤ 2 ^ 53 →
    Kept f P t (onKey f k cs) (value k)

/-- While a record lives, its key tells and keeps the charges; they are within its limits. -/
structure Books (f : Fleet) (calls : C → Reservation) (since now : ℚ) (value : Key → Option Written)
    (cs : List Commit) : Prop where
  told : ∀ k P, Steady f calls since k P → P.Chargeable now → (onKey f k cs).length ≤ 2 ^ 53 →
    Kept f P now (onKey f k cs) (value k)
  lasts : ∀ k P, Steady f calls since k P → P.Chargeable now → onKey f k cs ≠ [] →
    ∃ e, value k = some e ∧ e.Outlasts P.expiry
  within : ∀ k P, Steady f calls since k P → onKey f k cs ≠ [] → (onKey f k cs).length ≤ 2 ^ 53 →
    P.Within (onKey f k cs)
  unset : ∀ k, onKey f k cs = [] → value k = none

section Books
variable {f : Fleet} {calls : C → Reservation} {since now now' : ℚ}
  {value value' : Key → Option Written}
  {cs cs' : List Commit} {k : Key} {t : ℚ}

theorem onKey_append (f : Fleet) (k : Key) (cs cs' : List Commit) :
    onKey f k (cs ++ cs') = onKey f k cs ++ onKey f k cs' := by
  rw [onKey, List.flatMap_append, List.filter_append, List.map_append]
  rfl

/-- Every key tells at the present. -/
theorem Books.tells (h : Books f calls since now value cs) (hsince : since ≤ now)
    (hread : ∃ read : Binary64, read.value = now) (k : Key) :
    Tells f calls since now value cs k now where
  past := le_rfl
  started := hsince
  read := hread
  told := h.told k

theorem Policy.Chargeable.earlier {P : Policy} (h : P.Chargeable now') (hnow : now ≤ now') :
    P.Chargeable now := by
  obtain ⟨read, hread, hlive⟩ := h
  exact ⟨read, hnow.trans hread, hlive⟩

theorem Books.later (h : Books f calls since now value cs) (hnow : now ≤ now') :
    Books f calls since now' value cs where
  told k P hsteady hlive hlen := (h.told k P hsteady (hlive.earlier hnow) hlen).later hnow
  lasts k P hsteady hlive := h.lasts k P hsteady (hlive.earlier hnow)
  within := h.within
  unset := h.unset

/-- A key that does not change still tells. -/
theorem Tells.keep (h : Tells f calls since now value cs k t) (hnow : now ≤ now')
    (hvalue : value' k = value k) (hcharges : onKey f k cs' = onKey f k cs) :
    Tells f calls since now' value' cs' k t where
  past := h.past.trans hnow
  started := h.started
  read := h.read
  told := by
    rw [hvalue, hcharges]
    exact h.told

/-- **An entry that goes counted nothing that matters.** -/
theorem Books.lapse {e : Written} (h : Books f calls since now value cs) (hk : value k = some e)
    (hdue : e.deadline ≤ now) : Books f calls since now (Function.update value k none) cs := by
  -- a record that lives keeps its entry
  have hlost : ∀ P, Steady f calls since k P → ¬ P.Chargeable now := by
    intro P hsteady hlive
    by_cases hnil : onKey f k cs = []
    · rw [h.unset k hnil] at hk
      exact Option.some_ne_none e hk.symm
    · obtain ⟨e', he', hlast⟩ := h.lasts k P hsteady hlive hnil
      obtain rfl := Option.some.inj (hk.symm.trans he')
      obtain ⟨read, hread, hbefore⟩ := hlive
      linarith [hlast read hbefore]
  refine ⟨?_, ?_, h.within, ?_⟩
  · intro k' P hsteady hlive hlen
    by_cases heq : k' = k
    · subst heq
      exact absurd hlive (hlost P hsteady)
    · rw [Function.update_of_ne heq]
      exact h.told k' P hsteady hlive hlen
  · intro k' P hsteady hlive hne
    by_cases heq : k' = k
    · subst heq
      exact absurd hlive (hlost P hsteady)
    · rw [Function.update_of_ne heq]
      exact h.lasts k' P hsteady hlive hne
  · intro k' hnil
    by_cases heq : k' = k
    · subst heq
      exact Function.update_self _ _ _
    · rw [Function.update_of_ne heq]
      exact h.unset k' hnil

/-- **A commit keeps the books.** -/
theorem Books.commit {c : C} {commit : Commit} {steps : List Step} (h : Books f calls since now value cs)
    (hs : Steps f (calls c) value now commit steps)
    (htells : ∀ s ∈ steps, Tells f calls since now value cs s.key s.charge.now) :
    Books f calls since now (Store.modifyAll value ((commit.written now).map fun w => (w.1, fun _ => w.2)))
      (cs ++ [commit]) := by
  -- what a step makes of the key it is on
  have hstep : ∀ s ∈ steps, ∀ P, Steady f calls since s.key P →
      (onKey f s.key cs ++ [s.charge]).length ≤ 2 ^ 53 →
        Kept f P s.charge.now (onKey f s.key cs ++ [s.charge]) (some s.written) ∧
          P.Within (onKey f s.key cs ++ [s.charge]) := by
    intro s hmem P hsteady hlen
    rw [List.length_append, List.length_singleton] at hlen
    have hsound := hs.sound s hmem
    have hpolicy := hs.policy s.key P (hsteady.under c) s hmem rfl
    have hlive : P.Chargeable s.charge.now := by
      obtain ⟨read, hread⟩ := (htells s hmem).read
      rw [← hpolicy]
      exact ⟨read, hread.ge, hread ▸ hsound.live⟩
    have hkept := (htells s hmem).told P hsteady hlive (by omega)
    obtain ⟨hafter, hwithin⟩ := hsound.kept P _ hpolicy (by omega) hkept
    exact ⟨hafter, hwithin fun hne => h.within s.key P hsteady hne (by omega)⟩
  refine ⟨?_, ?_, ?_, ?_⟩
  · intro k P hsteady hlive hlen
    rw [onKey_append] at hlen ⊢
    rcases hs.cases k with ⟨-, hnil, hsame⟩ | ⟨s, hmem, rfl, hone, hvalue⟩
    · rw [hnil, List.append_nil] at hlen ⊢
      rw [hsame]
      exact h.told k P hsteady hlive hlen
    · rw [hone] at hlen ⊢
      rw [hvalue]
      exact (hstep s hmem P hsteady hlen).1.later (htells s hmem).past
  · intro k P hsteady hlive hne
    rw [onKey_append] at hne
    rcases hs.cases k with ⟨-, hnil, hsame⟩ | ⟨s, hmem, rfl, -, hvalue⟩
    · rw [hnil, List.append_nil] at hne
      rw [hsame]
      exact h.lasts k P hsteady hlive hne
    · rw [hvalue]
      refine ⟨s.written, rfl, ?_⟩
      obtain ⟨start, hstart⟩ := (htells s hmem).read
      have hexact := hsteady.exact
      have hnear := hsteady.near
      rw [← hs.policy s.key P (hsteady.under c) s hmem rfl] at hexact hnear ⊢
      refine (hs.sound s hmem).lasts start hstart hexact (hnear.trans ?_) ?_
      · linarith [(htells s hmem).started]
      · linarith [(htells s hmem).past]
  · intro k P hsteady hne hlen
    rw [onKey_append] at hne hlen ⊢
    rcases hs.cases k with ⟨-, hnil, -⟩ | ⟨s, hmem, rfl, hone, -⟩
    · rw [hnil, List.append_nil] at hne hlen ⊢
      exact h.within k P hsteady hne hlen
    · rw [hone] at hlen ⊢
      exact (hstep s hmem P hsteady hlen).2
  · intro k hall
    rw [onKey_append, List.append_eq_nil_iff] at hall
    rcases hs.cases k with ⟨-, -, hsame⟩ | ⟨s, -, -, hone, -⟩
    · rw [hsame]
      exact h.unset k hall.1
    · rw [hone] at hall
      exact absurd hall.2 (List.cons_ne_nil _ _)

end Books

/-! ## Runs -/

section Runs
variable {f : Fleet} {calls : C → Reservation}

/-- A commit is on all the records of its reservation, with the amount it asked for. -/
def Reservation.Asked (f : Fleet) : Reservation → Commit → Prop
  | .python r, .python c =>
      Python.BudgetUsageTracker.records f.pythonConfig r.chain c.now = .ok c.records ∧
        Python.validatedAmount r.amount = .ok c.amount
  | .node r, .node c =>
      Node.BudgetUsageTracker.records f.nodeConfig r.chain c.now = .ok c.records ∧
        c.amount = r.amount
  | _, _ => False

/-- Every client watches what it reads. -/
theorem guarded_system (f : Fleet) (calls : C → Reservation) (c : C) (failed : ℕ) :
    ((system f calls).program c failed).Guarded [] := by
  simp only [system]
  cases calls c with
  | python r =>
      exact (Python.RedisBudgetUsageTracker.guarded_system f.python (fun _ : Unit => r) ()
        failed).adapt
  | node r => exact (Node.RedisUsageTracker.guarded_program f.node r failed).adapt

/-- **What a client commits**, in steps at a clock read after its keys were watched. -/
theorem exists_steps (time : ℚ) {c : C} {failed : ℕ} {trace : List (Reply Key (Option Written))}
    {commit : Commit} {value : Key → Option Written} {Fresh : Key → ℚ → Prop}
    (hwell : (calls c).WellFormed f)
    (hends : ((system f calls).program c failed).Ends trace (.ok commit))
    (hcurrent : ∀ k v, .got k v ∈ trace → value k = v)
    (hfresh : trace.Pairwise fun a b => ∀ now, b = .time now → ∀ p ∈ a.watched, Fresh p.1 now) :
    (calls c).Asked f commit ∧ ∃ steps, Steps f (calls c) value time commit steps ∧
      ∀ s ∈ steps, Fresh s.key s.charge.now := by
  simp only [system] at hends
  -- the charges are at the commit's clock read
  have hcharged : ∀ steps, Steps f (calls c) value time commit steps →
      (∀ p ∈ commit.charges f, Fresh p.1 p.2.now) → ∀ s ∈ steps, Fresh s.key s.charge.now := by
    intro steps hs hall s hmem
    refine hall (s.key, s.charge) ?_
    rw [hs.charges]
    exact List.mem_map.mpr ⟨s, hmem, rfl⟩
  cases hcall : calls c with
  | python r =>
      rw [hcall] at hends hwell hcharged
      obtain ⟨pc, rfl, hp⟩ := ends_adapt_ok hends
      have hcurrent := current_adapt (f := f.seenByPython) hcurrent
      have hfresh := fresh_adapt (f := f.seenByPython) hfresh
      obtain ⟨x, hx, hcom⟩ := Python.RedisBudgetUsageTracker.committed_of_program hp hcurrent
      obtain ⟨steps, hsteps⟩ := exists_steps_python time hwell hcom
      refine ⟨⟨hcom.records, by rw [hcom.amount]; exact hx⟩, steps, hsteps, hcharged steps hsteps ?_⟩
      have hclock := Python.RedisBudgetUsageTracker.fresh_of_program hp hfresh
      intro p hp
      obtain ⟨rec, hrec, rfl⟩ := List.mem_map.mp hp
      exact hclock rec hrec
  | node r =>
      rw [hcall] at hends hwell hcharged
      obtain ⟨nc, rfl, hn⟩ := ends_adapt_ok hends
      have hcurrent := current_adapt (f := seenByNode) hcurrent
      have hfresh := fresh_adapt (f := seenByNode) hfresh
      obtain ⟨hamount, hattempt⟩ := Node.RedisUsageTracker.attempt_of_program hn
      obtain ⟨hcom, hclock⟩ := Node.RedisUsageTracker.committed_of_ends hattempt hcurrent hfresh
      have hnumber := number_ofNumber hamount.1 hamount.2
      obtain ⟨steps, hsteps⟩ := exists_steps_node time hwell hnumber hcom
      refine ⟨⟨hcom.records, hcom.amount⟩, steps, hsteps, hcharged steps hsteps ?_⟩
      intro p hp
      obtain ⟨rec, hrec, rfl⟩ := List.mem_map.mp hp
      exact hclock rec hrec

/-- What is committed for a client is what it asked for. -/
def Requested (f : Fleet) (calls : C → Reservation)
    (e : Event C Key (Option Written) Failure Commit) : Prop :=
  ∀ commit, e.result = .ok commit → (calls e.client).Asked f commit

theorem commits_append (h h' : List (Event C Key (Option Written) Failure Commit)) :
    commits (h ++ h') = commits h ++ commits h' := List.filterMap_append

variable [DecidableEq C] {w : World C Key (Option Written) Failure Commit}
  {h : List (Event C Key (Option Written) Failure Commit)} {since now now' : ℚ}

/-- The invariant of a run. -/
structure Inv (f : Fleet) (calls : C → Reservation) (since now : ℚ)
    (w : World C Key (Option Written) Failure Commit)
    (h : List (Event C Key (Option Written) Failure Commit)) : Prop where
  consistent : Consistent (system f calls) (fun _ _ => True)
    (Tells f calls since now w.value (commits h)) w
  logged : Logged w h
  requested : ∀ e ∈ h, Requested f calls e
  books : Books f calls since now w.value (commits h)

theorem Inv.later (hinv : Inv f calls since now w h) (hnow : now ≤ now') : Inv f calls since now' w h where
  consistent c failed trace rest hstatus :=
    (hinv.consistent c failed trace rest hstatus).later (fun _ => le_rfl) (fun _ _ => rfl)
      (fun _ _ hseen => hseen) fun _ _ _ htells => htells.keep hnow rfl rfl
  logged := hinv.logged
  requested := hinv.requested
  books := hinv.books.later hnow

/-- What a step adds to the books. -/
theorem Inv.effect (hinv : Inv f calls since now w h) (hwell : ∀ c, (calls c).WellFormed f)
    {event : Option (Event C Key (Option Written) Failure Commit)}
    {w' : World C Key (Option Written) Failure Commit}
    (heffect : Effect (system f calls) (fun _ _ => True) (Tells f calls since now w.value (commits h)) w
      now event w') :
    (∀ e ∈ event, Requested f calls e) ∧
    Books f calls since now w'.value (commits (h ++ event.toList)) ∧
    ∀ k t, w'.version k = w.version k → Tells f calls since now w.value (commits h) k t →
      w'.value k = w.value k → Tells f calls since now w'.value (commits (h ++ event.toList)) k t := by
  cases heffect with
  | quiet w' hvalue hversion =>
      rw [Option.toList_none, List.append_nil, hvalue]
      exact ⟨fun e he => absurd he (Option.not_mem_none e), hinv.books, fun k t _ htells _ => htells⟩
  | raised w' hvalue hversion c failed trace e hends hseen =>
      have hsame : commits (h ++ [(⟨c, trace, .error e⟩ : Event C Key (Option Written) Failure
          Commit)]) = commits h := by
        rw [commits_append]
        exact List.append_nil _
      rw [Option.toList_some, hsame, hvalue]
      refine ⟨?_, hinv.books, fun k t _ htells _ => htells⟩
      intro e' he' commit hcommit
      rw [← Option.some.inj he'] at hcommit
      exact absurd hcommit error_ne_ok
  | committed w' c failed trace commit hends hcurrent hfresh hvalue hversion =>
      have hone : commits (h ++ [(⟨c, trace, .ok commit⟩ : Event C Key (Option Written) Failure
          Commit)]) = commits h ++ [commit] := commits_append _ _
      obtain ⟨hasked, steps, hsteps, htells⟩ :=
        exists_steps now (hwell c) hends hcurrent hfresh
      rw [Option.toList_some, hone, hvalue]
      refine ⟨?_, hinv.books.commit hsteps htells, ?_⟩
      · intro e he commit' hcommit
        rw [← Option.some.inj he] at hcommit ⊢
        obtain rfl := Except.ok.inj hcommit
        exact hasked
      · intro k t hk htells hsame
        refine htells.keep le_rfl hsame ?_
        rcases hsteps.cases k with ⟨-, hnil, -⟩ | ⟨s, hmem, hkey, -, -⟩
        · rw [onKey_append, hnil, List.append_nil]
        · -- a key of the commit would have changed its version
          have hin : k ∈ ((system f calls).writes commit now).map Prod.fst := by
            simp only [system, hsteps.commands, List.map_map]
            exact List.mem_map.mpr ⟨s, hmem, hkey⟩
          rw [hversion] at hk
          simp only [World.write, if_pos hin] at hk
          omega
  | lapsed w' k v hlapse hw' =>
      simp only [system] at hlapse
      split_ifs at hlapse with hdue
      obtain rfl := Option.some.inj hlapse
      obtain ⟨e, he, hdue⟩ := (Option.any_eq_true _ _).mp hdue
      have hvalue : w'.value = Function.update w.value k none := by
        rw [hw']
        rfl
      rw [Option.toList_none, List.append_nil, hvalue]
      refine ⟨fun e he => absurd he (Option.not_mem_none e),
        hinv.books.lapse he (of_decide_eq_true hdue), ?_⟩
      intro k' t _ htells hsame
      exact htells.keep le_rfl hsame rfl

/-- A client's turn is at a time that a clock reads, from `since` on. -/
def Timely (since : ℚ) (i : Action C Key × ℚ) : Prop :=
  ∀ c, i.1 = .client c → since ≤ i.2 ∧ ∃ read : Binary64, read.value = i.2

/-- **Every step keeps the invariant.** -/
theorem Inv.step (hinv : Inv f calls since now w h) (hwell : ∀ c, (calls c).WellFormed f)
    (i : Action C Key × ℚ) (htimely : Timely since i) (hnow : now ≤ i.2) :
    Inv f calls since i.2 (Optimistic.step (system f calls) w i).2
      (h ++ (Optimistic.step (system f calls) w i).1.toList) := by
  obtain ⟨i, t⟩ := i
  have hlater := hinv.later hnow
  have hsys := guarded_system f calls
  have hfresh := fun c hc => hlater.books.tells (htimely c hc).1 (htimely c hc).2
  have hlog := hlater.logged.step hlater.consistent hsys (fun _ => trivial) i hfresh
  have heffect := hlater.consistent.effect hsys (fun _ => trivial) i hfresh
  obtain ⟨hrequested, hbooks, hkeep⟩ := hlater.effect hwell heffect
  refine ⟨?_, hlog, ?_, hbooks⟩
  · refine hlater.consistent.step hsys (fun _ => trivial) i hfresh rfl (fun _ _ hseen => hseen) ?_
    intro k u hversion htells
    exact hkeep k u hversion htells ((step_later (system f calls) w (i, t)).2 k hversion)
  · intro e he
    rcases List.mem_append.mp he with hold | hnew
    · exact hinv.requested e hold
    · exact hrequested e (Option.mem_toList.mp hnew)

theorem Inv.init (f : Fleet) (calls : C → Reservation) (since now : ℚ) :
    Inv f calls since now start [] where
  consistent := .init _ _ _ _
  logged := .init _
  requested _ he := absurd he List.not_mem_nil
  books :=
    { told := fun _ P _ _ _ => .nil f P now
      lasts := fun _ _ _ _ hne => absurd rfl hne
      within := fun _ _ _ hne => absurd rfl hne
      unset := fun _ _ => rfl }

/-- What has been committed for a client. -/
def commitsOf (c : C) (h : List (Event C Key (Option Written) Failure Commit)) : List Commit :=
  commits (h.filter fun e => e.client = c)

/-- What holds after every run, at the last time. -/
structure Served (f : Fleet) (calls : C → Reservation) (since now : ℚ)
    (w : World C Key (Option Written) Failure Commit)
    (h : List (Event C Key (Option Written) Failure Commit)) : Prop where
  /-- The committed charges on a key, of both runtimes, respect its limits. -/
  within : ∀ k P, Steady f calls since k P → onKey f k (commits h) ≠ [] →
    (onKey f k (commits h)).length ≤ 2 ^ 53 → P.Within (onKey f k (commits h))
  /-- While its record lives, either runtime reads them all from the entry. -/
  counted : ∀ k P, Steady f calls since k P → P.Chargeable now →
    (onKey f k (commits h)).length ≤ 2 ^ 53 → Kept f P now (onKey f k (commits h)) (w.value k)
  /-- The entry does not go before. -/
  lasts : ∀ k P, Steady f calls since k P → P.Chargeable now → onKey f k (commits h) ≠ [] →
    ∃ e, w.value k = some e ∧ e.Outlasts P.expiry
  /-- A call that returned has committed once, on all its records. -/
  returned : ∀ c commit, w.status c = .ended (.ok commit) →
    commitsOf c h = [commit] ∧ (calls c).Asked f commit
  /-- A call that raised, or is not done, has committed nothing. -/
  raised : ∀ c, (∀ commit, w.status c ≠ .ended (.ok commit)) → commitsOf c h = []

theorem Inv.served (hinv : Inv f calls since now w h) : Served f calls since now w h where
  within := hinv.books.within
  counted := hinv.books.told
  lasts := hinv.books.lasts
  returned c commit hstatus := by
    have hlog := hinv.logged c
    rw [hstatus] at hlog
    obtain ⟨trace, htrace⟩ := hlog
    have hmem : (⟨c, trace, .ok commit⟩ : Event C Key (Option Written) Failure Commit) ∈ h := by
      apply List.mem_of_mem_filter (p := fun e => e.client = c)
      rw [htrace]
      exact List.mem_singleton_self _
    refine ⟨?_, hinv.requested _ hmem commit rfl⟩
    rw [commitsOf, htrace]
    rfl
  raised c hstatus := by
    have hlog := hinv.logged c
    cases hc : w.status c with
    | idle =>
        rw [hc] at hlog
        rw [commitsOf, hlog]
        rfl
    | running failed trace rest =>
        rw [hc] at hlog
        rw [commitsOf, hlog]
        rfl
    | ended r =>
        rw [hc] at hlog
        obtain ⟨trace, htrace⟩ := hlog
        rw [commitsOf, htrace]
        cases r with
        | error e => rfl
        | ok commit => exact absurd hc (hstatus commit)

/-- **Limits hold however the two runtimes interleave.** In every run of calls in Python and
in Node on one database, with one clock for the clients and the server that `since` reads
first, the committed charges on a key that is charged under one policy are within its limits;
as long as a clock may read a time before its record expires the entry is there and tells
them all to either runtime; and a call has committed all its records once if it returned, and
nothing if not. -/
theorem fleet_within_limits (f : Fleet) (calls : C → Reservation)
    (hwell : ∀ c, (calls c).WellFormed f) (since : ℚ) (actions : List (Action C Key × ℚ))
    (hclock : (actions.map Prod.snd).Pairwise (· ≤ ·)) (htimely : ∀ i ∈ actions, Timely since i) :
    Served f calls since ((actions.map Prod.snd).getLastD 0)
      (Runs.final (Optimistic.step (system f calls)) start actions)
      (Runs.log (Optimistic.step (system f calls)) start actions) := by
  have halong : Runs.Along (Optimistic.step (system f calls)) (fun _ i => Timely since i) start
      actions := by
    rw [Runs.along_iff]
    intro before i after heq
    exact htimely i (heq ▸ List.mem_append_right _ List.mem_cons_self)
  have hrun := Runs.log_invariant (fun now w h => Inv f calls since now w h)
    (fun _ _ _ i hinv htimely hnow => hinv.step hwell i htimely hnow) (Inv.init f calls since) actions
    halong hclock
  exact hrun.served

/-! ### A sample -/

/-- No budgets; the digest is SHA-256's on the key of the sample token. -/
def sampleFleet : Fleet where
  pythonConfig := pythonTokens
  nodeConfig := nodeTokens
  keyPrefix := Json.codes "swarmauth:ledger:"
  sha256 text :=
    if text = utf8Encode (Python.BudgetUsageTracker.ledgerKey "token" (lit "j1")) then
      [10, 69, 124, 113, 149, 69, 77, 47, 138, 102, 189, 58, 1, 130, 189, 32, 140, 123, 172, 193,
        69, 197, 195, 245, 53, 217, 181, 94, 178, 153, 230, 234]
    else text
  other _ := .missing

/-- The claims of the sample token, for one call, as Node parses them. -/
def sampleNodeOnce : Node.Claims where
  iss := lit "agent"
  sub := lit "server"
  jti := lit "j1"
  capabilities := [lit "mail:*"]
  iat := .ofInt 1000
  exp := .ofInt 1010
  constraints := { maxCalls := some (.ofInt 1) }
  dlg := none
  prf := none

theorem retries_pos_sample : 0 < 64 := by decide

/-- One client in each runtime presents the token. -/
def sampleReservations : Bool → Reservation
  | true => .python ⟨[Python.sampleOnce], .scalar (.int 0), 64, retries_pos_sample⟩
  | false => .node ⟨[sampleNodeOnce], .ofInt 0, 64, retries_pos_sample⟩

/-- Node's client watches and reads, Python's commits, Node's is aborted and tries again. -/
def sampleTurns : List (Action Bool Key × ℚ) :=
  [false, false, false, false, true, true, true, true, true, true, false, false, false, false, false,
    false].map fun c => (.client c, 1001)

theorem wellFormed_sample (c : Bool) : (sampleReservations c).WellFormed sampleFleet := by
  cases c with
  | true =>
      intro a ha b hb _
      have hone : Python.RedisBudgetUsageTracker.ledgerKeys [Python.sampleOnce] =
          [Python.BudgetUsageTracker.ledgerKey "token" (lit "j1")] := rfl
      rw [hone, List.mem_singleton] at ha hb
      rw [ha, hb]
  | false =>
      refine ⟨?_, ?_⟩
      · intro a ha b hb _
        have hone : Node.RedisUsageTracker.ledgerIds [sampleNodeOnce] = [("token", lit "j1")] := rfl
        rw [hone, List.mem_singleton] at ha hb
        rw [ha, hb]
      · intro claims hclaims
        have hparse : (Node.parse (Python.sampleToken Python.sampleOnce)).toOption.any (fun n =>
            decide (n.claims = sampleNodeOnce)) = true := by decide +kernel
        rw [List.mem_singleton.mp hclaims]
        cases hp : Node.parse (Python.sampleToken Python.sampleOnce) with
        | error e =>
            rw [hp] at hparse
            cases hparse
        | ok n =>
            rw [hp] at hparse
            exact ⟨_, n, hp, of_decide_eq_true hparse⟩

theorem timely_sample (i : Action Bool Key × ℚ) (hi : i ∈ sampleTurns) : Timely 1001 i := by
  obtain ⟨c, -, rfl⟩ := List.mem_map.mp hi
  intro _ _
  obtain ⟨read, hread⟩ := Binary64.exists_value_eq (n := 1001) (by norm_num) (by norm_num) (by norm_num)
  exact ⟨le_rfl, read, hread⟩

set_option maxRecDepth 100000 in
theorem fleet_within_limits_sample :
    Served sampleFleet sampleReservations 1001 1001
      (Runs.final (Optimistic.step (system sampleFleet sampleReservations)) start sampleTurns)
      (Runs.log (Optimistic.step (system sampleFleet sampleReservations)) start sampleTurns) ∧
    (Runs.log (Optimistic.step (system sampleFleet sampleReservations)) start sampleTurns).map
      (fun e => (e.client, e.result.toOption.isSome)) = [(true, true), (false, false)] :=
  ⟨fleet_within_limits sampleFleet sampleReservations wellFormed_sample 1001 sampleTurns
    (by decide +kernel) timely_sample, by decide +kernel⟩

end Runs

end SwarmAuth.Interop.MixedLedger
