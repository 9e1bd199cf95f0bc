import SwarmAuth.Node.Enforcement
import SwarmAuth.Node.Budgets
import SwarmAuth.Node.Signed
import SwarmAuth.Js.Value
import SwarmAuth.Lib.Runs

/-!
# The in-memory usage tracker in Node

`UsageTracker` of `index.js` counts calls in numbers, keeps amounts as decimal texts, and
drops expired entries whenever a reservation gets as far as its entries. An entry is shared
by all tokens of a `jti` and outlives each of them. Counts stop growing at `2 ^ 53`, beyond
every limit.

## Main definitions

* `Usage`, `State`, `checkAndRecordChain`, `tracker` — the tracker.
* `Declared` — what a parsed token can declare.
* `Reserved`, `checkAndRecordChain_cases` — what a reservation does.
* `Tracked`, `Tracked.reserve` — **what a token's entry says about the charges to the token**,
  whatever is reserved.
-/
namespace SwarmAuth.Node.UsageTracker

open Js
open BudgetUsageTracker (reached recentStamps exceedsLimit)
open Allowance (Charge Covers Charged Retains Admits Respects)

/-! ## The tracker -/

/-- `{ calls, amount, timestamps, expiresAt }`; the amount is kept as text. -/
structure Usage where
  calls : Double := .ofInt 0
  amount : List ℕ := Json.codes "0"
  timestamps : List ℚ := []
  expiresAt : Double := .ofInt 0
  deriving DecidableEq

/-- The entries, by `jti`. -/
abbrev State := Units → Option Usage

/-- No entries. -/
def State.empty : State := fun _ => none

/-- `this.usage.get(jti) ?? {…}`. -/
def State.get (s : State) (jti : Units) : Usage := (s jti).getD {}

/-- The entries that have not expired. -/
def State.purge (s : State) (now : ℚ) : State := fun jti =>
  (s jti).filter fun entry => !reached entry.expiresAt now

/-- `Math.max` of numbers. -/
def maxNumber (a b : Double) : Double := if lessThan a b then b else a

/-- An entry with one more call, of this total. -/
def charge (previous : Usage) (total : List ℕ) (now : ℚ) (exp : Double) : Usage where
  calls := plus previous.calls (.ofInt 1)
  amount := total
  timestamps := recentStamps previous.timestamps now ++ [now]
  expiresAt := maxNumber previous.expiresAt (plus exp (.ofInt 3))

/-- The checks on one link's entry, and the entry it leaves; lengths are exact. -/
def pendingUsage (s : State) (amount : Double) (now : ℚ) (claims : Claims) :
    Outcome (Units × Usage) := do
  let previous := s.get claims.jti
  let limits := claims.constraints
  raiseIf (limits.maxCalls.any fun n => lessThan n (plus previous.calls (.ofInt 1)))
    (violation "Token call allowance exhausted")
  let total ← orRaise (addAmounts previous.amount (numberText amount))
    (.error "Cannot convert to a BigInt")
  let exceeds ← orRaise (exceedsLimit total limits.maxAmountUsd) (.error "Cannot convert to a BigInt")
  raiseIf exceeds (violation "Token budget exhausted")
  raiseIf (limits.rateLimitPerMin.any fun n =>
      lessThan n (.ofInt ((recentStamps previous.timestamps now).length + 1 : ℕ)))
    (violation "Token rate allowance exhausted")
  return (claims.jti, charge previous total now claims.exp)

/-- The checks on a chain before its entries are looked at. -/
def checkChain (chain : List Claims) (amount : Double) (now : ℚ) : Outcome Unit := do
  raiseIf (!isFinite amount || lessThan amount (.ofInt 0))
    (violation "Amount must be a finite, non-negative number")
  raiseIf (chain = [] ∨ ¬ (chain.map (·.jti)).Nodup)
    (violation "Delegation token IDs must be distinct")
  raiseIf (chain.any fun claims => reached (plus claims.exp (.ofInt 3)) now)
    (.swarmAuth "TOKEN_EXPIRED" "Token expired before usage reservation")

/-- `checkAndRecordChain`. Expired entries go even when a check on an entry then fails. -/
def checkAndRecordChain (chain : List Claims) (amount : Double) (now : ℚ) (s : State) :
    Outcome Unit × State :=
  match checkChain chain amount now with
  | .error e => (.error e, s)
  | .ok _ =>
      match chain.mapM (pendingUsage (s.purge now) amount now) with
      | .error e => (.error e, s.purge now)
      | .ok pending => (.ok (), Store.updateAll (s.purge now) pending)

/-- `UsageTracker`. -/
def tracker : Tracker State where
  checkAndRecord claims amount now s :=
    let r := checkAndRecordChain [claims] amount now s
    (.of r.1, r.2)
  checkAndRecordChain := some fun chain amount now s =>
    let r := checkAndRecordChain chain amount now s
    (.of r.1, r.2)

/-- A reservation answers at once. -/
theorem reserve_tracker {take : Reply → Outcome Unit} (hreturns : take .returns = .ok ())
    (hthrows : ∀ e, take (.throws e) = .error e) (lacking : String) (a : Admitted) (now : ℚ)
    (s : State) : reserve (some tracker) take lacking a now s =
      ((checkAndRecordChain a.chain a.amount now s).1.map fun _ => a.claims,
        (checkAndRecordChain a.chain a.amount now s).2) := by
  have hreply : tracker.reply a now s = some (Reply.of (checkAndRecordChain a.chain a.amount now s).1,
      (checkAndRecordChain a.chain a.amount now s).2) := by
    rw [Tracker.reply]
    split
    · rename_i claims hchain
      rw [hchain]
      rfl
    · rfl
  simp only [reserve, hreply]
  cases (checkAndRecordChain a.chain a.amount now s).1 with
  | ok u => rw [Reply.of, hreturns]
  | error e => rw [Reply.of, hthrows]

/-! ## Numbers -/

/-- The value of a number that is not negative, as it is written. -/
def decimalValue : Double → ℚ
  | .finite _ x => x.shortest.value
  | _ => 0

/-- A finite number that is not negative. -/
def Charges (d : Double) : Prop := isFinite d = true ∧ lessThan d (.ofInt 0) = false

section Numbers
variable {d e : Double} {k : ℕ} {m : ℤ}

theorem value_zero : (Double.ofInt 0).value? = some 0 := by decide +kernel

theorem decimalValue_nonneg (d : Double) : 0 ≤ decimalValue d := by
  cases d with
  | finite neg x => exact Decimal.value_nonneg _
  | inf neg => exact le_rfl
  | nan => exact le_rfl

/-- The text of an amount is a layout of its value. -/
theorem exists_text (h : Charges d) :
    ∃ l : Layout, l.Valid ∧ numberText d = l.text false ∧ l.decimal.value = decimalValue d := by
  obtain ⟨hfinite, hle⟩ := h
  cases d with
  | finite neg x =>
      refine ⟨numberLayout x.shortest, numberLayout_valid x, ?_, value_numberLayout _⟩
      have hsign : (neg && decide (x.sig ≠ 0)) = false := by
        by_contra hneg
        rw [Bool.not_eq_false, Bool.and_eq_true, decide_eq_true_eq] at hneg
        obtain ⟨rfl, hsig⟩ := hneg
        rw [lessThan_value rfl value_zero, decide_eq_false_iff_not, not_lt, if_pos rfl] at hle
        have := Binary64.value_pos hsig
        linarith
      rw [numberText, hsign]
  | inf neg => cases hfinite
  | nan => cases hfinite

/-- One more call; counts stop at `2 ^ 53`. -/
theorem value_plus_one (hd : d.value? = some (k : ℚ)) (hk : k ≤ 2 ^ 53) :
    (plus d (.ofInt 1)).value? = some ((min (k + 1) (2 ^ 53) : ℕ) : ℚ) := by
  have hone : (Double.ofInt 1).value? = some 1 := by decide +kernel
  have hsum : plus d (.ofInt 1) = nearestTo ((k + 1 : ℤ) : ℚ) := by
    rw [plus, hd, hone]
    push_cast
    rfl
  rw [hsum]
  by_cases hlast : k = 2 ^ 53
  · subst hlast
    have hmin : min (2 ^ 53 + 1) (2 ^ 53) = 2 ^ 53 := by norm_num
    rw [hmin]
    refine (congrArg (fun q : ℚ => (nearestTo q).value?) ?_).trans (nearestTo_beyond.1.trans ?_) <;>
      norm_num
  · have hmin : min (k + 1) (2 ^ 53) = k + 1 := by omega
    rw [hmin, nearestTo_intCast (by rw [abs_of_nonneg (by positivity)]; omega)]
    push_cast
    rfl

/-- A count that is not above a safe limit is at most that. -/
theorem le_of_not_lessThan (hd : d.value? = some (m : ℚ)) (he : e.value? = some (k : ℚ))
    (h : lessThan d e = false) : (k : ℤ) ≤ m := by
  rw [lessThan_value hd he, decide_eq_false_iff_not, not_lt] at h
  exact_mod_cast h

/-- A length that is not above a safe limit is at most that. -/
theorem length_le_of_not_lessThan (hd : d.value? = some (m : ℚ)) (hm : m < 2 ^ 53)
    (h : lessThan d (.ofInt (k : ℤ)) = false) : (k : ℤ) ≤ m := by
  by_cases hsmall : k ≤ 2 ^ 53
  · have habs : |(k : ℤ)| ≤ 2 ^ 53 := by
      rw [abs_of_nonneg (by positivity)]
      exact_mod_cast hsmall
    exact le_of_not_lessThan hd (value_ofInt habs) h
  · -- beyond, the number is at least `2 ^ 53`, or infinite
    exfalso
    have hneg : decide ((k : ℤ) < 0) = false := by simp
    rw [Double.ofInt, hneg, Int.natAbs_natCast, Double.nearest] at h
    cases hr : Binary64.ofRat (k : ℚ) with
    | none =>
        rw [hr] at h
        cases d with
        | finite neg x => cases h
        | inf neg => cases hd
        | nan => cases hd
    | some x =>
        rw [hr] at h
        have hle : Binary64.pow53.value ≤ (k : ℚ) := by
          rw [Binary64.value_pow53]
          exact_mod_cast (not_le.mp hsmall).le
        have hge := Binary64.le_ofRat hle hr
        rw [Binary64.value_pow53] at hge
        have hx : (Double.finite false x).value? = some x.value := rfl
        rw [lessThan_value hd hx, decide_eq_false_iff_not, not_lt] at h
        have hm' : (m : ℚ) < 2 ^ 53 := by exact_mod_cast hm
        linarith

theorem value_maxNumber {x y : ℚ} (hd : d.value? = some x) (he : e.value? = some y) :
    (maxNumber d e).value? = some (max x y) := by
  rw [maxNumber, lessThan_value hd he]
  by_cases hlt : x < y
  · rw [decide_eq_true hlt, if_pos rfl, max_eq_right hlt.le, he]
  · rw [decide_eq_false hlt, if_neg Bool.false_ne_true, max_eq_left (not_lt.mp hlt), hd]

end Numbers

/-! ## What a token declares -/

/-- A limit on a count: a safe integer that is positive. -/
structure Counting (d : Double) (n : ℤ) : Prop where
  value : d.value? = some (n : ℚ)
  positive : 1 ≤ n
  safe : n < 2 ^ 53

/-- What a parsed token can declare. -/
structure Declared (c : Claims) : Prop where
  maxCalls : ∀ d, c.constraints.maxCalls = some d → ∃ n, Counting d n
  rate : ∀ d, c.constraints.rateLimitPerMin = some d → ∃ n, Counting d n
  amount : ∀ d, c.constraints.maxAmountUsd = some d → Charges d
  expiry : ∃ r, (plus c.exp (.ofInt 3)).value? = some r

section Declared
variable {v : Value} {d : Double}

theorem counting_of_validCount (h : validCount v = true) (hd : numberOf v = some d) :
    ∃ n, Counting d n := by
  cases v with
  | scalar s =>
      cases s with
      | number e =>
          obtain rfl : e = d := Option.some.inj hd
          have hnullish : Value.isNullish (.scalar (.number e)) = false := rfl
          simp only [validCount, hnullish, Bool.false_or, Bool.and_eq_true, Bool.not_eq_true'] at h
          obtain ⟨n, hn, habs⟩ := exists_int_of_safe h.1
          have hone : (Double.ofInt 1).value? = some ((1 : ℤ) : ℚ) := by decide +kernel
          have hle : lessThan e (.ofInt 1) = false := h.2
          rw [lessThan_value hn hone, decide_eq_false_iff_not, not_lt] at hle
          exact ⟨n, hn, by exact_mod_cast hle, (abs_lt.mp habs).2⟩
      | _ => cases hd
  | _ => cases hd

theorem charges_of_validAmount (h : validAmount v = true) (hd : numberOf v = some d) :
    Charges d := by
  cases v with
  | scalar s =>
      cases s with
      | number e =>
          obtain rfl : e = d := Option.some.inj hd
          have hnullish : Value.isNullish (.scalar (.number e)) = false := rfl
          simp only [validAmount, hnullish, Bool.false_or, Bool.and_eq_true, Bool.not_eq_true'] at h
          exact h
      | _ => cases hd
  | _ => cases hd

/-- **What a parsed token can declare.** -/
theorem declared_of_presented {c : Claims} (h : Presented c) : Declared c := by
  obtain ⟨limits, hvalid, hc⟩ := h.limits
  simp only [validateConstraints, raiseIf_bind_eq_ok, raiseIf_eq_ok, Bool.not_eq_true',
    Bool.not_eq_false] at hvalid
  obtain ⟨-, hcalls, hrate, hamount, -⟩ := hvalid
  refine ⟨fun d hd => ?_, fun d hd => ?_, fun d hd => ?_, ?_⟩
  · rw [hc] at hd
    exact counting_of_validCount hcalls hd
  · rw [hc] at hd
    exact counting_of_validCount hrate hd
  · rw [hc] at hd
    exact charges_of_validAmount hamount hd
  · obtain ⟨n, hn, habs⟩ := exists_int_of_safe h.safe_exp
    have hthree : (Double.ofInt 3).value? = some 3 := by decide +kernel
    have hsum : plus c.exp (.ofInt 3) = nearestTo ((n + 3 : ℤ) : ℚ) := by
      rw [plus, hn, hthree]
      push_cast
      rfl
    have hsmall : |n + 3| ≤ 2 ^ 55 := by
      rw [abs_lt] at habs
      rw [abs_le]
      omega
    obtain ⟨x, -, hx⟩ := value_nearestTo (abs_intCast_lt hsmall)
    rw [hsum]
    exact ⟨_, hx⟩

end Declared

/-- The allowance a token declares. -/
def allowance (c : Claims) : Allowance.Limits where
  calls := c.constraints.maxCalls.bind intOf
  amount := c.constraints.maxAmountUsd.map decimalValue
  rate := c.constraints.rateLimitPerMin.bind intOf

theorem intOf_counting {d : Double} {n : ℤ} (h : Counting d n) : intOf d = some n :=
  intOf_value h.value

/-- A limit on a count is one of the allowance. -/
theorem counting_of_limit {limit : Option Double} {n : ℤ}
    (hlimit : ∀ d, limit = some d → ∃ n, Counting d n) (hn : limit.bind intOf = some n) :
    ∃ d, limit = some d ∧ Counting d n := by
  obtain ⟨d, hd, hint⟩ := Option.bind_eq_some_iff.mp hn
  obtain ⟨m, hm⟩ := hlimit d hd
  rw [intOf_counting hm, Option.some.injEq] at hint
  rw [← hint]
  exact ⟨d, hd, hm⟩

theorem Declared.nonNeg {c : Claims} (h : Declared c) : (allowance c).NonNeg where
  calls n hn := by
    obtain ⟨d, -, hd⟩ := counting_of_limit h.maxCalls hn
    exact zero_le_one.trans hd.positive
  amount m hm := by
    obtain ⟨d, -, rfl⟩ := Option.map_eq_some_iff.mp hm
    exact decimalValue_nonneg d
  rate n hn := by
    obtain ⟨d, -, hd⟩ := counting_of_limit h.rate hn
    exact zero_le_one.trans hd.positive

/-! ## What a reservation does -/

/-- What the entry's fields hold. -/
structure Usage.Fine (u : Usage) : Prop where
  calls : ∃ k : ℕ, k ≤ 2 ^ 53 ∧ u.calls.value? = some (k : ℚ)
  amount : ∃ l : Layout, l.Valid ∧ u.amount = l.text false
  expiry : ∃ e, u.expiresAt.value? = some e

/-- The checks on a link's entry, and the total with the charge. -/
structure Allows (claims : Claims) (u : Usage) (total : List ℕ) (now : ℚ) (amount : Double) :
    Prop where
  sum : addAmounts u.amount (numberText amount) = some total
  calls : ∀ n, claims.constraints.maxCalls = some n → lessThan n (plus u.calls (.ofInt 1)) = false
  amount : exceedsLimit total claims.constraints.maxAmountUsd = some false
  rate : ∀ n, claims.constraints.rateLimitPerMin = some n →
    lessThan n (.ofInt ((recentStamps u.timestamps now).length + 1 : ℕ)) = false

section Reservations
variable {s s' : State} {amount : Double} {now : ℚ} {chain : List Claims} {claims : Claims}

theorem any_eq_false {limit : Option Double} {f : Double → Bool} :
    ¬ limit.any f = true ↔ ∀ n, limit = some n → f n = false := by
  cases limit with
  | none => simp
  | some n => simp

theorem pendingUsage_ok {p : Units × Usage} : pendingUsage s amount now claims = .ok p ↔
    ∃ total, Allows claims (s.get claims.jti) total now amount ∧
      p = (claims.jti, charge (s.get claims.jti) total now claims.exp) := by
  rw [pendingUsage, raiseIf_bind_eq_ok, any_eq_false]
  constructor
  · intro h
    obtain ⟨hcalls, h⟩ := h
    obtain ⟨total, htotal, h⟩ := bind_eq_ok.mp h
    obtain ⟨exceeds, hexceeds, h⟩ := bind_eq_ok.mp h
    obtain ⟨hamount, h⟩ := raiseIf_bind_eq_ok.mp h
    obtain ⟨hrate, h⟩ := raiseIf_bind_eq_ok.mp h
    rw [eq_false_of_ne_true hamount] at hexceeds
    exact ⟨total, ⟨orRaise_eq_ok.mp htotal, hcalls, orRaise_eq_ok.mp hexceeds,
      any_eq_false.mp hrate⟩, (pure_eq_ok.mp h).symm⟩
  · intro h
    obtain ⟨total, hallows, rfl⟩ := h
    refine ⟨hallows.calls, bind_eq_ok.mpr ⟨total, orRaise_eq_ok.mpr hallows.sum, bind_eq_ok.mpr
      ⟨false, orRaise_eq_ok.mpr hallows.amount, raiseIf_bind_eq_ok.mpr ⟨by decide, ?_⟩⟩⟩⟩
    exact raiseIf_bind_eq_ok.mpr ⟨any_eq_false.mpr hallows.rate, rfl⟩

/-- The entries of a chain that passes. -/
theorem pendingUsages_ok {pending : List (Units × Usage)}
    (h : chain.mapM (pendingUsage s amount now) = .ok pending) :
    pending.map Prod.fst = chain.map (·.jti) ∧ ∀ claims ∈ chain, ∃ total,
      Allows claims (s.get claims.jti) total now amount ∧
        (claims.jti, charge (s.get claims.jti) total now claims.exp) ∈ pending := by
  induction chain generalizing pending with
  | nil =>
      rw [List.mapM_nil, pure_eq_ok] at h
      rw [← h]
      exact ⟨rfl, fun _ hmem => absurd hmem List.not_mem_nil⟩
  | cons claims chain ih =>
      rw [List.mapM_cons] at h
      obtain ⟨p, hp, h⟩ := bind_eq_ok.mp h
      obtain ⟨rest, hrest, h⟩ := bind_eq_ok.mp h
      obtain ⟨total, hallows, rfl⟩ := pendingUsage_ok.mp hp
      obtain ⟨hjtis, hall⟩ := ih hrest
      rw [← pure_eq_ok.mp h]
      refine ⟨by rw [List.map_cons, List.map_cons, hjtis], List.forall_mem_cons.mpr ⟨?_, ?_⟩⟩
      · exact ⟨total, hallows, List.mem_cons_self⟩
      · intro link hlink
        obtain ⟨total', hallows', hmem⟩ := hall link hlink
        exact ⟨total', hallows', List.mem_cons_of_mem _ hmem⟩

theorem checkChain_ok : checkChain chain amount now = .ok () ↔ Charges amount ∧ chain ≠ [] ∧
    (chain.map (·.jti)).Nodup ∧
      ∀ claims ∈ chain, reached (plus claims.exp (.ofInt 3)) now = false := by
  simp only [checkChain, raiseIf_bind_eq_ok, raiseIf_eq_ok, not_or, not_not, Charges,
    Bool.or_eq_true, Bool.not_eq_true', Bool.not_eq_false, List.any_eq_true, not_exists, not_and,
    Bool.not_eq_true, and_assoc]

/-- What a returned reservation establishes, and the state it leaves. -/
structure Reserved (chain : List Claims) (amount : Double) (now : ℚ) (s s' : State) : Prop where
  charges : Charges amount
  live : ∀ claims ∈ chain, reached (plus claims.exp (.ofInt 3)) now = false
  charged : ∀ claims ∈ chain, ∃ total,
    Allows claims ((s.purge now).get claims.jti) total now amount ∧
      s' claims.jti = some (charge ((s.purge now).get claims.jti) total now claims.exp)
  same : ∀ jti, jti ∉ chain.map (·.jti) → s' jti = s.purge now jti

/-- **A reservation charges every entry of its chain or none**; a refused one changes at most
what has expired. -/
theorem checkAndRecordChain_cases {r : Outcome Unit}
    (h : checkAndRecordChain chain amount now s = (r, s')) :
    (r ≠ .ok () ∧ (s' = s ∨ s' = s.purge now)) ∨ (r = .ok () ∧ Reserved chain amount now s s') := by
  rw [checkAndRecordChain] at h
  cases hchain : checkChain chain amount now with
  | error e =>
      rw [hchain] at h
      obtain ⟨rfl, rfl⟩ := Prod.mk.inj h
      exact Or.inl ⟨error_ne_ok, Or.inl rfl⟩
  | ok u =>
      obtain ⟨hcharges, -, hnodup, hlive⟩ := checkChain_ok.mp hchain
      rw [hchain] at h
      cases hpending : chain.mapM (pendingUsage (s.purge now) amount now) with
      | error e =>
          rw [hpending] at h
          obtain ⟨rfl, rfl⟩ := Prod.mk.inj h
          exact Or.inl ⟨error_ne_ok, Or.inr rfl⟩
      | ok pending =>
          rw [hpending] at h
          obtain ⟨rfl, rfl⟩ := Prod.mk.inj h
          obtain ⟨hjtis, hall⟩ := pendingUsages_ok hpending
          refine Or.inr ⟨rfl, hcharges, hlive, ?_, ?_⟩
          · intro claims hmem
            obtain ⟨total, hallows, hin⟩ := hall claims hmem
            exact ⟨total, hallows, Store.updateAll_of_mem _ (by rw [hjtis]; exact hnodup) hin⟩
          · intro jti hjti
            rw [← hjtis] at hjti
            exact Store.updateAll_of_not_mem _ _ hjti

end Reservations

/-! ## Entries as records -/

/-- How many calls an entry counts. -/
def Usage.count (u : Usage) : ℕ := ⌊u.calls.value?.getD 0⌋.toNat

/-- The amount an entry has. -/
def Usage.spent (u : Usage) : ℚ :=
  match decimalParts u.amount with
  | some (n, scale) => n * 10 ^ (-scale)
  | none => 0

/-- An entry as the token's limits see it; without a limit on calls, `n` of them. -/
def Usage.record (T : Claims) (n : ℕ) (u : Usage) : Allowance.Record :=
  ⟨if T.constraints.maxCalls = none then n else u.count, u.spent, u.timestamps⟩

/-- More than the token may spend. -/
def beyond (T : Claims) : ℚ := (T.constraints.maxAmountUsd.map decimalValue).getD 0 + 1

section Entries
variable {T : Claims} {u : Usage} {k n : ℕ} {l : Layout} {amount exp : Double} {total : List ℕ}
  {now r : ℚ}

theorem count_of (h : u.calls.value? = some (k : ℚ)) : u.count = k := by
  rw [Usage.count, h, Option.getD_some, Int.floor_natCast, Int.toNat_natCast]

theorem spent_of (hl : l.Valid) (h : u.amount = l.text false) : u.spent = l.decimal.value := by
  rw [Usage.spent, h, decimalParts_text hl]
  simp only [Int.cast_natCast, neg_neg]
  rfl

theorem Usage.Fine.count_le (hu : u.Fine) : u.count ≤ 2 ^ 53 := by
  obtain ⟨k, hk, hcalls⟩ := hu.calls
  rwa [count_of hcalls]

theorem Usage.Fine.spent_nonneg (hu : u.Fine) : 0 ≤ u.spent := by
  obtain ⟨l, hl, hamount⟩ := hu.amount
  rw [spent_of hl hamount]
  exact Decimal.value_nonneg _

theorem fine_empty : Usage.Fine {} where
  calls := ⟨0, Nat.zero_le _, value_zero⟩
  amount := ⟨⟨[48], [], none⟩, ⟨by decide, by decide, fun _ => rfl, by decide⟩, rfl⟩
  expiry := ⟨0, value_zero⟩

/-- **A charged entry** counts one call more, and its amount is the exact sum. -/
structure Charge.Adds (u u' : Usage) (amount : Double) (r : ℚ) : Prop where
  fine : u'.Fine
  count : u'.count = min (u.count + 1) (2 ^ 53)
  spent : u'.spent = u.spent + decimalValue amount
  expiry : ∀ e, u.expiresAt.value? = some e → u'.expiresAt.value? = some (max e r)

theorem Usage.Fine.charge (hu : u.Fine) (hamount : Charges amount)
    (hsum : addAmounts u.amount (numberText amount) = some total)
    (hr : (plus exp (.ofInt 3)).value? = some r) :
    Charge.Adds u (charge u total now exp) amount r := by
  obtain ⟨k, hk, hcalls⟩ := hu.calls
  obtain ⟨l, hl, htext⟩ := hu.amount
  obtain ⟨e, he⟩ := hu.expiry
  obtain ⟨m, hm, hnumber, hvalue⟩ := exists_text hamount
  rw [htext, hnumber, addAmounts_text hl hm, Option.some.injEq] at hsum
  have hcanonical := sumLayout_canonical l m
  have hplus := value_plus_one hcalls hk
  have hmax : ∀ e, u.expiresAt.value? = some e →
      (maxNumber u.expiresAt (plus exp (.ofInt 3))).value? = some (max e r) :=
    fun e he => value_maxNumber he hr
  refine ⟨⟨⟨_, min_le_right _ _, hplus⟩, ⟨_, hcanonical.toValid, hsum.symm⟩, _, hmax e he⟩, ?_, ?_,
    hmax⟩
  · rw [count_of hcalls, count_of (u := UsageTracker.charge u total now exp) hplus]
  · rw [spent_of hl htext, spent_of (u := UsageTracker.charge u total now exp) hcanonical.toValid
      hsum.symm, value_sumLayout, hvalue]

/-- The token's own reservation has the charge on its record. -/
theorem charged_charge (h : Charge.Adds u (charge u total now exp) amount r)
    (hcalls : T.constraints.maxCalls ≠ none → u.count + 1 ≤ 2 ^ 53) :
    Charged 60 (beyond T) (allowance T) ⟨decimalValue amount, now⟩ (u.record T n)
      ((charge u total now exp).record T (n + 1)) where
  calls := by
    simp only [Usage.record]
    by_cases hmax : T.constraints.maxCalls = none
    · rw [if_pos hmax, if_pos hmax]
    · rw [if_neg hmax, if_neg hmax, h.count, min_eq_left (hcalls hmax)]
  spent := by
    simp only [Usage.record, h.spent]
    exact min_le_left _ _
  stamps _ t ht := by
    have hkeep : (recentStamps u.timestamps now).countP (fun s => t ≤ s) =
        u.timestamps.countP fun s => t ≤ s := Allowance.countP_filter_le ht
    simp only [Usage.record, charge, List.countP_append, hkeep, List.countP_singleton,
      decide_eq_true_eq]
    exact le_rfl

/-- Any reservation retains the record. -/
theorem retains_charge (hu : u.Fine) (h : Charge.Adds u (charge u total now exp) amount r) :
    Retains 60 (beyond T) (allowance T) now (u.record T n) ((charge u total now exp).record T n) where
  calls := by
    simp only [Usage.record]
    by_cases hmax : T.constraints.maxCalls = none
    · rw [if_pos hmax, if_pos hmax]
    · rw [if_neg hmax, if_neg hmax, h.count]
      exact le_min (Nat.le_succ _) hu.count_le
  spent := by
    have hnonneg := decimalValue_nonneg amount
    simp only [Usage.record, h.spent]
    exact (min_le_left _ _).trans (le_add_of_nonneg_right hnonneg)
  stamps _ t ht := by
    have hkeep : (recentStamps u.timestamps now).countP (fun s => t ≤ s) =
        u.timestamps.countP fun s => t ≤ s := Allowance.countP_filter_le ht
    simp only [Usage.record, charge, List.countP_append, hkeep]
    exact Nat.le_add_right _ _

/-- A limit on calls that lets one more pass is above the count. -/
theorem count_lt_of_allows (hu : u.Fine) {d : Double} {m : ℤ} (hd : Counting d m)
    (h : lessThan d (plus u.calls (.ofInt 1)) = false) : (u.count : ℤ) + 1 ≤ m := by
  obtain ⟨k, hk, hcalls⟩ := hu.calls
  have hle := le_of_not_lessThan hd.value (value_plus_one hcalls hk) h
  have hsafe := hd.safe
  rw [count_of hcalls]
  rw [Nat.cast_min] at hle
  push_cast at hle
  omega

/-- **The checks are those of the token's allowance.** -/
theorem Allows.admits (hT : Declared T) (hu : u.Fine)
    (h : Allows T u total now amount) (hadds : Charge.Adds u (charge u total now exp) amount r) :
    Admits 60 (allowance T) ⟨decimalValue amount, now⟩ (u.record T n)
      (charge u total now exp).spent where
  calls m hm := by
    obtain ⟨d, hd, hcounting⟩ := counting_of_limit hT.maxCalls hm
    have hsome : T.constraints.maxCalls ≠ none := by
      rw [hd]
      exact Option.some_ne_none d
    rw [Usage.record, if_neg hsome]
    exact count_lt_of_allows hu hcounting (h.calls d hd)
  amount m hm := by
    obtain ⟨d, hd, rfl⟩ := Option.map_eq_some_iff.mp hm
    obtain ⟨l, hl, htext⟩ := hadds.fine.amount
    obtain ⟨m, hm, hnumber, hvalue⟩ := exists_text (hT.amount d hd)
    have hexceeds := h.amount
    have htotal : total = l.text false := htext
    rw [hd, exceedsLimit, htotal, hnumber, amountExceeds_text hl hm, Option.some.injEq,
      decide_eq_false_iff_not, not_lt, hvalue] at hexceeds
    rw [spent_of hl htext]
    exact hexceeds
  rate m hm := by
    obtain ⟨d, hd, hcounting⟩ := counting_of_limit hT.rate hm
    have hle := length_le_of_not_lessThan hcounting.value hcounting.safe (h.rate d hd)
    simp only [Usage.record, List.countP_eq_length_filter]
    exact_mod_cast hle

theorem limit_lt_beyond {m : ℚ} (hm : (allowance T).amount = some m) : m < beyond T := by
  have hmax : T.constraints.maxAmountUsd.map decimalValue = some m := hm
  rw [beyond, hmax, Option.getD_some]
  linarith

end Entries

/-! ## A token's entry -/

/-- While the token can be charged, until `r`, its entry accounts for the charges `h` to it
and will not be dropped. -/
structure Tracked (T : Claims) (r now : ℚ) (s : State) (h : List Charge) : Prop where
  fine : ∀ jti u, s jti = some u → u.Fine
  respects : Respects 60 (allowance T) h
  covers : now < r → Covers 60 (beyond T) (allowance T) now ((s.get T.jti).record T h.length) h
  retained : now < r → h ≠ [] →
    ∃ u e, s T.jti = some u ∧ u.expiresAt.value? = some e ∧ r ≤ e

section Tracked
variable {T : Claims} {r now now' : ℚ} {s s' : State} {h : List Charge} {jti : Units} {u : Usage}

theorem get_of_some (hs : s jti = some u) : s.get jti = u := by
  rw [State.get, hs, Option.getD_some]

theorem fine_get (hfine : ∀ jti u, s jti = some u → u.Fine) (jti : Units) : (s.get jti).Fine := by
  rw [State.get]
  cases hs : s jti with
  | none => exact fine_empty
  | some u => exact hfine jti u hs

theorem reached_value {d : Double} {q : ℚ} (hd : d.value? = some q) :
    reached d now = decide (q ≤ now) := by
  rw [reached, hd, Option.any_some]

/-- A purge keeps what has not expired. -/
theorem purge_of_some (hs : s jti = some u) {e : ℚ} (he : u.expiresAt.value? = some e)
    (hlive : now < e) : s.purge now jti = some u := by
  rw [State.purge, hs, Option.filter_some, if_pos]
  rw [reached_value he, decide_eq_false (not_le.mpr hlive)]
  rfl

theorem purge_some (hs : s.purge now jti = some u) : s jti = some u :=
  (Option.filter_eq_some_iff.mp hs).1

theorem Tracked.init (hT : Declared T) (r now : ℚ) : Tracked T r now State.empty [] where
  fine _ _ hs := absurd hs (Option.some_ne_none _).symm
  respects := .nil hT.nonNeg
  covers _ := .nil fine_empty.spent_nonneg
  retained _ hne := absurd rfl hne

theorem Tracked.later (htr : Tracked T r now s h) (hnow : now ≤ now') : Tracked T r now' s h where
  fine := htr.fine
  respects := htr.respects
  covers hlive := (htr.covers (hnow.trans_lt hlive)).retain hnow .refl
  retained hlive := htr.retained (hnow.trans_lt hlive)

/-- **No purge touches the entry of a token that can still be charged.** -/
theorem Tracked.purge (htr : Tracked T r now s h) : Tracked T r now (s.purge now) h := by
  have hfine : ∀ jti u, s.purge now jti = some u → u.Fine :=
    fun jti u hs => htr.fine jti u (purge_some hs)
  have hkept : now < r → h ≠ [] → ∃ u e, s T.jti = some u ∧ s.purge now T.jti = some u ∧
      u.expiresAt.value? = some e ∧ r ≤ e := by
    intro hlive hne
    obtain ⟨u, e, hu, he, hle⟩ := htr.retained hlive hne
    exact ⟨u, e, hu, purge_of_some hu he (hlive.trans_le hle), he, hle⟩
  refine ⟨hfine, htr.respects, fun hlive => ?_, fun hlive hne => ?_⟩
  · by_cases hne : h = []
    · subst hne
      exact .nil (fine_get hfine T.jti).spent_nonneg
    · obtain ⟨u, e, hu, hpurged, -⟩ := hkept hlive hne
      rw [get_of_some hpurged, ← get_of_some hu]
      exact htr.covers hlive
  · obtain ⟨u, e, -, hpurged, he, hle⟩ := hkept hlive hne
    exact ⟨u, e, hpurged, he, hle⟩

/-- What a link of a reserved chain leaves under its `jti`. -/
theorem Reserved.adds {chain : List Claims} {amount : Double} (hres : Reserved chain amount now s s')
    (hfine : ∀ jti u, s.purge now jti = some u → u.Fine) {link : Claims} (hlink : link ∈ chain)
    (hdeclared : Declared link) :
    ∃ total rl, Allows link ((s.purge now).get link.jti) total now amount ∧
      s' link.jti = some (charge ((s.purge now).get link.jti) total now link.exp) ∧
      (plus link.exp (.ofInt 3)).value? = some rl ∧
      Charge.Adds ((s.purge now).get link.jti)
        (charge ((s.purge now).get link.jti) total now link.exp) amount rl := by
  obtain ⟨total, hallows, hs'⟩ := hres.charged link hlink
  obtain ⟨rl, hrl⟩ := hdeclared.expiry
  exact ⟨total, rl, hallows, hs', hrl, (fine_get hfine link.jti).charge hres.charges hallows.sum hrl⟩

/-- **A reservation keeps the token's entry in step**, whether the token is charged (`mine`)
or only another of its `jti`. -/
theorem Tracked.reserve {chain : List Claims} {amount : Double} (hT : Declared T)
    (hr : (plus T.exp (.ofInt 3)).value? = some r) (htr : Tracked T r now s h)
    (hchain : ∀ link ∈ chain, Declared link) (hres : Reserved chain amount now s s') (mine : Bool)
    (hmine : mine = true → T ∈ chain) :
    Tracked T r now s' (h ++ if mine then [⟨decimalValue amount, now⟩] else []) := by
  have hpurged := htr.purge
  have hfine := fine_get hpurged.fine
  have hnonneg := decimalValue_nonneg amount
  have hcharged := fun link hlink => hres.adds hpurged.fine hlink (hchain link hlink)
  have hfine' : ∀ jti u, s' jti = some u → u.Fine := by
    intro jti u hu
    by_cases hmem : jti ∈ chain.map (·.jti)
    · obtain ⟨link, hlink, rfl⟩ := List.mem_map.mp hmem
      obtain ⟨total, rl, -, hs', -, hadds⟩ := hcharged link hlink
      obtain rfl := Option.some.inj (hs'.symm.trans hu)
      exact hadds.fine
    · rw [hres.same jti hmem] at hu
      exact hpurged.fine jti u hu
  cases mine with
  | true =>
      have hmem := hmine rfl
      obtain ⟨total, rl, hallows, hs', hrl, hadds⟩ := hcharged T hmem
      obtain rfl := Option.some.inj (hr.symm.trans hrl)
      have hlive : now < r := by
        have hreached := hres.live T hmem
        rwa [reached_value hr, decide_eq_false_iff_not, not_le] at hreached
      have hcalls : T.constraints.maxCalls ≠ none → ((s.purge now).get T.jti).count + 1 ≤ 2 ^ 53 := by
        intro hsome
        obtain ⟨d, hd⟩ := Option.ne_none_iff_exists'.mp hsome
        obtain ⟨m, hm⟩ := hT.maxCalls d hd
        have hle := count_lt_of_allows (hfine T.jti) hm (hallows.calls d hd)
        have hsafe := hm.safe
        omega
      have hcov := hpurged.covers hlive
      have hnext := charged_charge (T := T) (n := h.length) hadds hcalls
      have hadmits := hallows.admits (n := h.length) hT (hfine T.jti) hadds
      have hlength : (h ++ if true then [(⟨decimalValue amount, now⟩ : Charge)] else []).length =
          h.length + 1 := by simp
      refine ⟨hfine', ?_, fun _ => ?_, fun _ _ => ?_⟩
      · exact htr.respects.snoc hcov le_rfl hnext hadmits (fun m => limit_lt_beyond) hnonneg
      · rw [get_of_some hs', hlength]
        exact hcov.snoc le_rfl hnext hnonneg
      · obtain ⟨e, he⟩ := (hfine T.jti).expiry
        exact ⟨_, _, hs', hadds.expiry e he, le_max_right _ _⟩
  | false =>
      rw [if_neg Bool.false_ne_true, List.append_nil]
      by_cases hmem : T.jti ∈ chain.map (·.jti)
      · obtain ⟨link, hlink, hjti⟩ := List.mem_map.mp hmem
        obtain ⟨total, rl, -, hs', -, hadds⟩ := hcharged link hlink
        rw [hjti] at hs' hadds
        refine ⟨hfine', htr.respects, fun hlive => ?_, fun hlive hne => ?_⟩
        · rw [get_of_some hs']
          exact (hpurged.covers hlive).retain le_rfl (retains_charge (hfine T.jti) hadds)
        · obtain ⟨u, e, hu, he, hle⟩ := hpurged.retained hlive hne
          rw [← get_of_some hu] at he
          exact ⟨_, _, hs', hadds.expiry e he, hle.trans (le_max_left _ _)⟩
      · have hsame := hres.same T.jti hmem
        have hget : s'.get T.jti = (s.purge now).get T.jti := by
          rw [State.get, hsame]
          rfl
        refine ⟨hfine', htr.respects, ?_, ?_⟩
        · rw [hget]
          exact hpurged.covers
        · rw [hsame]
          exact hpurged.retained

/-- The token's entry counts the charges `h`, up to where counting stops, and their exact sum. -/
structure Counted (T : Claims) (s : State) (h : List Charge) : Prop where
  count : (s.get T.jti).count = min h.length (2 ^ 53)
  spent : (s.get T.jti).spent = (h.map Charge.amount).sum

theorem count_empty : Usage.count {} = 0 := count_of value_zero

theorem spent_empty : Usage.spent {} = 0 := by
  have htext : ({} : Usage).amount = (⟨[48], [], none⟩ : Layout).text false := rfl
  rw [spent_of ⟨by decide, by decide, fun _ => rfl, by decide⟩ htext]
  exact zero_mul _

theorem Counted.init (T : Claims) : Counted T State.empty [] := ⟨count_empty, spent_empty⟩

/-- A purge keeps the counts. -/
theorem Counted.purge (hc : Counted T s h) (htr : Tracked T r now s h) (hlive : now < r) :
    Counted T (s.purge now) h := by
  by_cases hne : h = []
  · subst hne
    cases hs : s.purge now T.jti with
    | none =>
        have hget : (s.purge now).get T.jti = {} := by rw [State.get, hs, Option.getD_none]
        exact ⟨by rw [hget]; exact count_empty, by rw [hget]; exact spent_empty⟩
    | some u =>
        have hget : (s.purge now).get T.jti = s.get T.jti := by
          rw [get_of_some hs, get_of_some (purge_some hs)]
        exact ⟨by rw [hget]; exact hc.count, by rw [hget]; exact hc.spent⟩
  · obtain ⟨u, e, hu, he, hle⟩ := htr.retained hlive hne
    have hget : (s.purge now).get T.jti = s.get T.jti := by
      rw [get_of_some (purge_of_some hu he (hlive.trans_le hle)), get_of_some hu]
    exact ⟨by rw [hget]; exact hc.count, by rw [hget]; exact hc.spent⟩

/-- **A reservation counts the token's charge once**, and no other. -/
theorem Counted.reserve {chain : List Claims} {amount : Double} (hc : Counted T s h)
    (htr : Tracked T r now s h) (hlive : now < r) (hchain : ∀ link ∈ chain, Declared link)
    (hres : Reserved chain amount now s s') (mine : Bool)
    (hmine : mine = true ↔ T.jti ∈ chain.map (·.jti)) (hmem : mine = true → T ∈ chain) :
    Counted T s' (h ++ if mine then [⟨decimalValue amount, now⟩] else []) := by
  have hpurged := hc.purge htr hlive
  have hfine := fine_get htr.purge.fine
  cases mine with
  | true =>
      obtain ⟨total, rl, -, hs', -, hadds⟩ :=
        hres.adds htr.purge.fine (hmem rfl) (hchain T (hmem rfl))
      refine ⟨?_, ?_⟩
      · rw [get_of_some hs', hadds.count, hpurged.count, if_pos rfl, List.length_append,
          List.length_singleton]
        omega
      · rw [get_of_some hs', hadds.spent, hpurged.spent, if_pos rfl, List.map_append,
          List.sum_append, List.map_singleton, List.sum_singleton]
  | false =>
      have hsame := hres.same T.jti fun hin => Bool.false_ne_true (hmine.mpr hin)
      have hget : s'.get T.jti = (s.purge now).get T.jti := by
        rw [State.get, hsame]
        rfl
      rw [if_neg Bool.false_ne_true, List.append_nil]
      exact ⟨by rw [hget]; exact hpurged.count, by rw [hget]; exact hpurged.spent⟩

end Tracked

end SwarmAuth.Node.UsageTracker
