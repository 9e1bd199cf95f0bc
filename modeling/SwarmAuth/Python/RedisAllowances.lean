import SwarmAuth.Python.RedisClients
import SwarmAuth.Lib.Runs

/-!
# Token allowances in Redis

A token's keys outlive the token, and whoever charges it has read what is there: the
committed charges respect its limits, in whatever order the clients' requests came.

## Main definitions

* `Tells`, `Told`, `Books` — what a key, a token's keys and the server owe.
* `Books.commit`, `Books.lapse` — what a step keeps.
* `Inv` — the invariant of a run.
* `redis_allowances_hold` — **no interleaving passes a token's limits**.
-/
namespace SwarmAuth.Python.RedisUsageTracker

open Optimistic Optimistic.Attempt
open Allowance (Charge Covers Charged Admits Respects)
open BudgetUsageTracker (decimalText value_decimalText le_exp_decimalText)

variable {C : Type}

/-! ## What the server owes -/

/-- A hash counts these charges. -/
structure Counts (charges : List Charge) (v : Option Entry) : Prop where
  calls : callsOf v = charges.length
  spent : min (charges.map Charge.amount).sum exactBelow ≤ (spentOf v).value

/-- A sorted set has the charges of the last minute. -/
def Stamps (T : CapabilityClaims) (t : ℚ) (charges : List Charge) (v : Option Entry) : Prop :=
  (allowance T).rate ≠ none → ∀ u, t - 60 ≤ u →
    (charges.countP fun ch => u ≤ ch.time) ≤ (stampsOf v).countP fun s => u ≤ s

/-- At a clock read a key tells what has been charged to its token, if that has not expired. -/
structure Tells (cfg : Config) (calls : C → Reservation) (now : ℚ) (value : State)
    (ts : List Transaction) (k : Key) (t : ℚ) : Prop where
  past : t ≤ now
  read : ∃ read : Binary64, read.value = t
  times : ∀ T, Presented calls T → Sole calls T →
    k = cfg.hashKey T.jti ∨ k = cfg.zsetKey T.jti → ∀ ch ∈ chargesOn T ts, ch.time ≤ t
  hash : ∀ T, Presented calls T → Sole calls T → k = cfg.hashKey T.jti →
    Chargeable T t → Counts (chargesOn T ts) (value k)
  zset : ∀ T, Presented calls T → Sole calls T → k = cfg.zsetKey T.jti →
    Chargeable T t → Stamps T t (chargesOn T ts) (value k)

/-- The charges to a token respect its limits, and its keys tell and keep them until it has
expired. -/
structure Told (cfg : Config) (now : ℚ) (value : State) (T : CapabilityClaims)
    (charges : List Charge) : Prop where
  times : ∀ ch ∈ charges, ch.time ≤ now
  hash : Chargeable T now → Counts charges (value (cfg.hashKey T.jti))
  zset : Chargeable T now → Stamps T now charges (value (cfg.zsetKey T.jti))
  kept : Chargeable T now → charges ≠ [] →
    Lasts (T.exp + retentionAfterExpSeconds) (value (cfg.hashKey T.jti)) ∧
      Lasts (T.exp + retentionAfterExpSeconds) (value (cfg.zsetKey T.jti))
  respects : Respects 60 (allowance T) charges

/-- The keys of all tokens. -/
structure Books (cfg : Config) (calls : C → Reservation) (now : ℚ) (value : State)
    (ts : List Transaction) : Prop where
  typed : Typed cfg calls value
  members : ∀ T, Presented calls T → ∀ m ∈ membersOf (value (cfg.zsetKey T.jti)),
    ∃ t ∈ ts, m.1 = t.member T.jti
  told : ∀ T, Presented calls T → Sole calls T → Told cfg now value T (chargesOn T ts)

section Books
variable {cfg : Config} {calls : C → Reservation} {now now' : ℚ} {value value' : State}
  {ts ts' : List Transaction} {T : CapabilityClaims} {charges : List Charge} {k : Key} {t : ℚ}

theorem Counts.nil_none : Counts [] none := by
  refine ⟨rfl, (min_le_left _ _).trans ?_⟩
  exact Decimal.value_nonneg _

theorem Stamps.nil (T : CapabilityClaims) (t : ℚ) (v : Option Entry) : Stamps T t [] v :=
  fun _ _ _ => Nat.zero_le _

theorem Stamps.later {v : Option Entry} (h : Stamps T now charges v) (hnow : now ≤ now') :
    Stamps T now' charges v :=
  fun hrate u hu => h hrate u (by linarith)

theorem Told.later (h : Told cfg now value T charges) (hnow : now ≤ now') :
    Told cfg now' value T charges where
  times ch hch := (h.times ch hch).trans hnow
  hash hlive := h.hash (hlive.earlier hnow)
  zset hlive := (h.zset (hlive.earlier hnow)).later hnow
  kept hlive := h.kept (hlive.earlier hnow)
  respects := h.respects

/-- A token is told by its keys. -/
theorem Told.congr (h : Told cfg now value T charges)
    (hhash : value' (cfg.hashKey T.jti) = value (cfg.hashKey T.jti))
    (hzset : value' (cfg.zsetKey T.jti) = value (cfg.zsetKey T.jti)) :
    Told cfg now value' T charges where
  times := h.times
  hash := by
    rw [hhash]
    exact h.hash
  zset := by
    rw [hzset]
    exact h.zset
  kept := by
    rw [hhash, hzset]
    exact h.kept
  respects := h.respects

theorem Books.later (h : Books cfg calls now value ts) (hnow : now ≤ now') :
    Books cfg calls now' value ts where
  typed := h.typed
  members := h.members
  told T hT hone := (h.told T hT hone).later hnow

/-- Every key tells at a clock read. -/
theorem Books.tells (h : Books cfg calls now value ts) (hread : ∃ read : Binary64, read.value = now)
    (k : Key) : Tells cfg calls now value ts k now where
  past := le_rfl
  read := hread
  times T hT hone _ := (h.told T hT hone).times
  hash T hT hone hk := hk ▸ (h.told T hT hone).hash
  zset T hT hone hk := hk ▸ (h.told T hT hone).zset

/-- A key that does not change still tells. -/
theorem Tells.keep (h : Tells cfg calls now value ts k t) (hnow : now ≤ now')
    (hvalue : value' k = value k) (hcharges : ∀ T, Presented calls T →
      k = cfg.hashKey T.jti ∨ k = cfg.zsetKey T.jti → chargesOn T ts' = chargesOn T ts) :
    Tells cfg calls now' value' ts' k t where
  past := h.past.trans hnow
  read := h.read
  times T hT hone hk := by
    rw [hcharges T hT hk]
    exact h.times T hT hone hk
  hash T hT hone hk := by
    rw [hvalue, hcharges T hT (Or.inl hk)]
    exact h.hash T hT hone hk
  zset T hT hone hk := by
    rw [hvalue, hcharges T hT (Or.inr hk)]
    exact h.zset T hT hone hk

/-- **A key that lapses held nothing that counts.** -/
theorem Books.lapse (h : Books cfg calls now value ts) (hk : value k ≠ none)
    (hlapsed : live now (value k) = none) :
    Books cfg calls now (Function.update value k none) ts := by
  have hother : ∀ k', Function.update value k none k' = value k' ∨
      k' = k ∧ Function.update value k none k' = none := by
    intro k'
    by_cases heq : k' = k
    · subst heq
      exact Or.inr ⟨rfl, Function.update_self _ _ _⟩
    · exact Or.inl (Function.update_of_ne heq _ _)
  -- what is kept does not lapse
  have hlost : ∀ T, Chargeable T now → ¬ Lasts (T.exp + retentionAfterExpSeconds) (value k) :=
    fun T hT hlast => hlast.not_lapsed hT hlapsed
  refine ⟨⟨?_, ?_⟩, ?_, ?_⟩
  · intro T hT
    rcases hother (cfg.hashKey T.jti) with hsame | ⟨-, hnone⟩
    · rw [hsame]
      exact h.typed.hash T hT
    · rw [hnone]
      exact .nothing
  · intro T hT
    rcases hother (cfg.zsetKey T.jti) with hsame | ⟨-, hnone⟩
    · rw [hsame]
      exact h.typed.zset T hT
    · rw [hnone]
      exact .nothing
  · intro T hT m hm
    rcases hother (cfg.zsetKey T.jti) with hsame | ⟨-, hnone⟩
    · rw [hsame] at hm
      exact h.members T hT m hm
    · rw [hnone] at hm
      exact absurd hm List.not_mem_nil
  · intro T hT hone
    have hT := h.told T hT hone
    by_cases hnil : chargesOn T ts = []
    · rw [hnil] at hT ⊢
      refine ⟨hT.times, fun hlive => ?_, fun hlive => .nil T now _, fun _ hne => absurd rfl hne,
        hT.respects⟩
      rcases hother (cfg.hashKey T.jti) with hsame | ⟨-, hnone⟩
      · rw [hsame]
        exact hT.hash hlive
      · rw [hnone]
        exact .nil_none
    · by_cases hlive : Chargeable T now
      · obtain ⟨hhash, hzset⟩ := hT.kept hlive hnil
        apply hT.congr
        · apply Function.update_of_ne
          intro heq
          exact hlost _ hlive (heq ▸ hhash)
        · apply Function.update_of_ne
          intro heq
          exact hlost _ hlive (heq ▸ hzset)
      · exact ⟨hT.times, fun hl => absurd hl hlive, fun hl => absurd hl hlive,
          fun hl => absurd hl hlive, hT.respects⟩

/-! ### A charge -/

section Charge
variable {x : Binary64} {total : Decimal} {member : Units} {ttl : ℤ} {t₁ : ℚ} {v z : Option Entry}

/-- What keys that tell say, as a record of the charges. -/
theorem covers_of_keys (htimes : ∀ ch ∈ charges, ch.time ≤ t) (hcounts : Counts charges v)
    (hstamps : Stamps T t charges z) :
    Covers 60 exactBelow (allowance T) t ⟨charges.length, (spentOf v).value, stampsOf z⟩ charges where
  calls := le_rfl
  spent := hcounts.spent
  stamps := hstamps
  times := htimes

/-- The record with the charge on it. -/
theorem charged_record (T : CapabilityClaims) (x : Binary64) (t₁ : ℚ) (n : ℕ) (stamps : List ℚ)
    (hv : HashEntry v) :
    Charged 60 exactBelow (allowance T) (chargeOf x t₁) ⟨n, (spentOf v).value, stamps⟩
      ⟨n + 1, (decimalSum (spentOf v) x).value, stamps ++ [t₁]⟩ where
  calls := le_rfl
  spent := min_le_value_decimalSum hv.fine x
  stamps _ u _ := by
    simp only [List.countP_append, List.countP_singleton, decide_eq_true_eq, chargeOf]
    exact le_rfl

/-- The checks of a link are those of its token's allowance. -/
theorem Linked.admits (hlinked : Linked cfg x t₁ value T total)
    (hcounts : Counts charges (value (cfg.hashKey T.jti))) :
    Admits 60 (allowance T) (chargeOf x t₁)
      ⟨charges.length, (spentOf (value (cfg.hashKey T.jti))).value,
        stampsOf (value (cfg.zsetKey T.jti))⟩
      (decimalSum (spentOf (value (cfg.hashKey T.jti))) x).value where
  calls n hn := by
    rw [← hcounts.calls]
    exact hlinked.calls n hn
  amount m hm := by
    obtain ⟨d, hd, rfl⟩ := Option.map_eq_some_iff.mp hm
    rw [← hlinked.sum]
    exact hlinked.amount d hd
  rate n hn := by
    exact_mod_cast hlinked.rate n hn

/-- A hash that is charged counts the charge. -/
theorem Counts.snoc (hv : HashEntry v) (hcounts : Counts charges v)
    (hlive : charges = [] ∨ live now v = v) :
    Counts (charges ++ [chargeOf x t₁]) (hashAfter now (decimalSum (spentOf v) x) ttl v) where
  calls := by
    have hcalls : callsOf (live now v) = charges.length := by
      rcases hlive with rfl | hsame
      · rcases live_eq_or now v with hl | hl
        · rw [hl]
          exact hcounts.calls
        · rw [hl]
          rfl
      · rw [hsame]
        exact hcounts.calls
    simp [hashAfter, callsOf, ← hcalls]
  spent := by
    have hsum := min_le_value_decimalSum hv.fine x
    have hnonneg := chargeOf_nonneg x t₁
    show _ ≤ (decimalText (decimalSum (spentOf v) x)).decimal.value
    rw [value_decimalText, List.map_append, List.sum_append, List.map_singleton, List.sum_singleton]
    refine le_trans (le_min ?_ (min_le_right _ _)) hsum
    rcases min_le_iff.mp hcounts.spent with hold | hcap
    · exact (min_le_left _ _).trans (by simpa [chargeOf] using hold)
    · exact (min_le_right _ _).trans
        (hcap.trans (le_add_of_nonneg_right (Decimal.value_nonneg _)))

/-- A sorted set with a new member has the charge. -/
theorem Stamps.snoc (hstamps : Stamps T t₁ charges z) (hnow : t₁ ≤ now)
    (hfresh : ∀ m ∈ membersOf z, m.1 ≠ member) (hlive : charges = [] ∨ live now z = z) :
    Stamps T now (charges ++ [chargeOf x t₁]) (zsetAfter now member t₁ ttl z) := by
  intro hrate u hu
  have hold : (charges.countP fun ch => u ≤ ch.time) ≤
      (stampsOf (live now z)).countP fun s => u ≤ s := by
    rcases hlive with rfl | hsame
    · exact Nat.zero_le _
    · rw [hsame]
      exact hstamps hrate u (by linarith)
  have hmembers : (membersOf (live now z)).filter (fun m => m.1 ≠ member) = membersOf (live now z) := by
    rw [List.filter_eq_self]
    intro m hm
    rcases live_eq_or now z with hl | hl
    · rw [hl] at hm
      exact decide_eq_true (hfresh m hm)
    · rw [hl] at hm
      exact absurd hm List.not_mem_nil
  have hafter : stampsOf (zsetAfter now member t₁ ttl z) =
      (stampsOf (live now z) ++ [t₁]).filter fun s => t₁ - 60 ≤ s := by
    have hmap : stampsOf (live now z) ++ [t₁] =
        (membersOf (live now z) ++ [(member, t₁)]).map Prod.snd := by
      rw [List.map_append, List.map_singleton, stampsOf]
    rw [stampsOf, zsetAfter, hmembers, hmap, List.filter_map]
    rfl
  rw [hafter, Allowance.countP_filter_le (by linarith), List.countP_append, List.countP_append]
  have hone : ([chargeOf x t₁].countP fun ch => u ≤ ch.time) = [t₁].countP fun s => u ≤ s := rfl
  omega

/-- **The rounded time to live reaches past every clock read** before the token is refused. -/
theorem lt_add_secondsLeft {start read : Binary64} (hexact : T.exp ≠ 2 ^ 53 - 2)
    (hstart : start.value < T.exp + retentionAfterExpSeconds)
    (hread : read.value < T.exp + retentionAfterExpSeconds) :
    ∃ seconds, secondsLeft T.exp start.value = some seconds ∧ read.value < start.value + seconds := by
  have hend : (T.exp : ℚ) + retentionAfterExpSeconds = (T.exp + retentionAfterExpSeconds : ℤ) := by
    push_cast
    rfl
  rw [hend] at hstart hread
  have hpos : 0 < T.exp + retentionAfterExpSeconds := by
    exact_mod_cast start.value_nonneg.trans_lt hstart
  have hsafe := T.abs_exp_le
  rw [maxSafe, abs_le] at hsafe
  have hthree : retentionAfterExpSeconds = 3 := rfl
  obtain ⟨e, he⟩ := Binary64.exists_value_eq (n := T.exp + retentionAfterExpSeconds) (by omega)
    (by omega) (by omega)
  rw [← he] at hstart hread
  have hone : 1 ≤ e.value := by
    rw [he]
    exact_mod_cast hpos
  have hleft : e.value - start.value < (2 : ℚ) ^ (1023 : ℤ) := by
    have hsmall := abs_intCast_lt (n := T.exp + retentionAfterExpSeconds) (abs_le.mpr ⟨by omega, by omega⟩)
    rw [← he] at hsmall
    have hnonneg := start.value_nonneg
    linarith [le_abs_self e.value]
  obtain ⟨r, hr⟩ := Binary64.exists_ofRat hleft
  refine ⟨⌈r.value⌉, ?_, ?_⟩
  · rw [secondsLeft, ← he, rounded_value, Option.bind_eq_bind, Option.bind_some,
      rounded_of_ofRat (sub_nonneg.mpr hstart.le) hr]
    rfl
  · have hreach := Binary64.lt_add_difference hone hstart hr hread
    have hceil := Int.le_ceil r.value
    linarith

/-- A charged key lasts until its token has expired. -/
theorem lasts_timeToLive (cfg : Config) {start : Binary64} (hexact : T.exp ≠ 2 ^ 53 - 2)
    (hstart : start.value < T.exp + retentionAfterExpSeconds) (data : Data) (hnow : start.value ≤ now) :
    Lasts (T.exp + retentionAfterExpSeconds)
      (some ⟨data, some (now + cfg.timeToLive T start.value)⟩) := by
  refine ⟨_, rfl, ?_⟩
  intro d hd read hread
  obtain rfl := Option.some.inj hd
  obtain ⟨seconds, hseconds, hreach⟩ := lt_add_secondsLeft hexact hstart hread
  have hmax : (seconds : ℚ) ≤ cfg.timeToLive T start.value := by
    rw [Config.timeToLive, hseconds, Option.getD_some]
    exact_mod_cast le_max_right _ _
  linarith

/-- **A committed link's keys tell and keep its charges, which respect its token's limits.** -/
theorem Told.snoc (htold : Told cfg now value T charges) (hv : HashEntry (value (cfg.hashKey T.jti)))
    (hexact : T.exp ≠ 2 ^ 53 - 2) (hread : ∃ read : Binary64, read.value = t₁)
    (hlive : t₁ < T.exp + retentionAfterExpSeconds) (hnow : t₁ ≤ now) (htimes : ∀ ch ∈ charges, ch.time ≤ t₁)
    (hcounts : Counts charges (value (cfg.hashKey T.jti)))
    (hstamps : Stamps T t₁ charges (value (cfg.zsetKey T.jti)))
    (hfresh : ∀ m ∈ membersOf (value (cfg.zsetKey T.jti)), m.1 ≠ member)
    (hlinked : Linked cfg x t₁ value T total)
    (hhash : value' (cfg.hashKey T.jti) =
      hashAfter now total (cfg.timeToLive T t₁) (value (cfg.hashKey T.jti)))
    (hzset : value' (cfg.zsetKey T.jti) =
      zsetAfter now member t₁ (cfg.timeToLive T t₁) (value (cfg.zsetKey T.jti))) :
    Told cfg now value' T (charges ++ [chargeOf x t₁]) := by
  have hcov := covers_of_keys htimes hcounts hstamps
  have hcharged := charged_record T x t₁ charges.length (stampsOf (value (cfg.zsetKey T.jti))) hv
  rw [hlinked.sum] at hhash
  refine ⟨?_, fun hT => ?_, fun hT => ?_, fun _ _ => ?_, ?_⟩
  · intro ch hch
    rcases List.mem_append.mp hch with hold | hnew
    · exact htold.times ch hold
    · rw [List.mem_singleton.mp hnew]
      exact hnow
  · rw [hhash]
    refine Counts.snoc hv hcounts ?_
    by_cases hnil : charges = []
    · exact Or.inl hnil
    · exact Or.inr ((htold.kept hT hnil).1.live_eq hT)
  · rw [hzset]
    refine Stamps.snoc hstamps hnow hfresh ?_
    by_cases hnil : charges = []
    · exact Or.inl hnil
    · exact Or.inr ((htold.kept hT hnil).2.live_eq hT)
  · rw [hhash, hzset]
    obtain ⟨start, rfl⟩ := hread
    exact ⟨lasts_timeToLive cfg hexact hlive _ hnow, lasts_timeToLive cfg hexact hlive _ hnow⟩
  · exact htold.respects.snoc hcov le_rfl hcharged (hlinked.admits hcounts)
      (fun m => limit_lt_exactBelow) (chargeOf_nonneg x t₁)

end Charge

/-! ### A transaction -/

section Commit
variable {chain : List CapabilityClaims} {tr : Transaction}

theorem chargesOn_append (T : CapabilityClaims) (ts ts' : List Transaction) :
    chargesOn T (ts ++ ts') = chargesOn T ts ++ chargesOn T ts' := List.filterMap_append

theorem chargesOn_mem (hT : T ∈ tr.commit.chain) :
    chargesOn T [tr] = [chargeOf tr.amount tr.commit.now] := by
  simp [chargesOn, hT]

theorem chargesOn_not_mem (hT : T ∉ tr.commit.chain) : chargesOn T [tr] = [] := by
  simp [chargesOn, hT]

theorem Committed.links (hcom : Committed cfg chain tr.amount value tr.commit)
    (hdistinct : (chain.map (·.jti)).Nodup) (hpresented : ∀ claims ∈ chain, Presented calls claims) :
    Links calls chain tr.commit :=
  ⟨hcom.same, hcom.linked.length_eq.symm, hdistinct, hpresented⟩

/-- The commands of a commit are those of its links. -/
theorem Links.onLink (hl : Links calls chain tr.commit) (hb : Typed cfg calls value)
    (hcom : Committed cfg chain tr.amount value tr.commit) :
    ∀ c ∈ tr.commit.commands cfg tr.member, OnLink cfg calls c := by
  intro c hc
  obtain ⟨p, hp, hc⟩ := List.mem_flatMap.mp hc
  refine ⟨p.1, hl.presented_zip hp, ?_⟩
  have hlinked : Linked cfg tr.amount tr.commit.now value p.1 p.2 := by
    rw [hcom.same] at hp
    exact (List.forall₂_iff_zip.mp hcom.linked).2 hp
  have hfine : -340 ≤ (decimalText p.2).decimal.exp := by
    rw [hlinked.sum]
    exact le_exp_decimalText (le_exp_decimalSum (hb.hash p.1 (hl.presented_zip hp)).fine tr.amount)
  simp only [Config.charge, List.mem_cons, List.not_mem_nil, or_false] at hc
  rcases hc with rfl | rfl | rfl | rfl | rfl | rfl
  · exact Or.inl rfl
  · exact Or.inl ⟨rfl, hfine⟩
  · exact Or.inr rfl
  · exact Or.inr rfl
  · exact Or.inl rfl
  · exact Or.inr rfl

/-- A token that no link has the id of keeps its keys. -/
theorem Links.exec_other (hl : Links calls chain tr.commit) (hsep : Separate calls)
    (hT : Presented calls T) (hjti : T.jti ∉ chain.map (·.jti)) :
    (exec now (tr.commit.commands cfg tr.member) value).2 (cfg.hashKey T.jti) =
        value (cfg.hashKey T.jti) ∧
      (exec now (tr.commit.commands cfg tr.member) value).2 (cfg.zsetKey T.jti) =
        value (cfg.zsetKey T.jti) := by
  have hkeys : ∀ c ∈ tr.commit.commands cfg tr.member, ∃ claims ∈ chain,
      c.key = cfg.hashKey claims.jti ∨ c.key = cfg.zsetKey claims.jti := by
    intro c hc
    obtain ⟨claims, hmem, hkey⟩ := List.mem_flatMap.mp (key_mem_keys hc)
    rw [hl.same] at hmem
    exact ⟨claims, hmem, by simpa using hkey⟩
  constructor
  · apply exec_of_not_mem
    intro c hc heq
    obtain ⟨claims, hmem, hk | hk⟩ := hkeys c hc
    · have hid := Config.hashKey_inj.mp (hk.symm.trans heq)
      exact hjti (List.mem_map.mpr ⟨claims, hmem, hid⟩)
    · exact hashKey_ne_zsetKey hsep hT (hl.presented claims hmem) (heq.symm.trans hk)
  · apply exec_of_not_mem
    intro c hc heq
    obtain ⟨claims, hmem, hk | hk⟩ := hkeys c hc
    · exact hashKey_ne_zsetKey hsep (hl.presented claims hmem) hT (hk.symm.trans heq)
    · have hid := Config.zsetKey_inj.mp (hk.symm.trans heq)
      exact hjti (List.mem_map.mpr ⟨claims, hmem, hid⟩)

/-- **A commit keeps the books.** -/
theorem Books.commit (hb : Books cfg calls now value ts) (hsep : Separate calls)
    (hcom : Committed cfg chain tr.amount value tr.commit)
    (hdistinct : (chain.map (·.jti)).Nodup) (hpresented : ∀ claims ∈ chain, Presented calls claims)
    (htells : ∀ k ∈ cfg.keys chain, Tells cfg calls now value ts k tr.commit.now)
    (hfresh : ∀ jti, ∀ t ∈ ts, t.member jti ≠ tr.member jti) :
    Books cfg calls now (exec now (tr.commit.commands cfg tr.member) value).2 (ts ++ [tr]) := by
  have hl : Links calls chain tr.commit := hcom.links hdistinct hpresented
  have hnew : ∀ T, Presented calls T → ∀ m ∈ membersOf (value (cfg.zsetKey T.jti)),
      m.1 ≠ tr.member T.jti := by
    intro T hT m hm
    obtain ⟨t, ht, hid⟩ := hb.members T hT m hm
    rw [hid]
    exact hfresh T.jti t ht
  have htotal : ∀ T ∈ chain, ∃ total, (T, total) ∈ tr.commit.chain.zip tr.commit.totals ∧
      Linked cfg tr.amount tr.commit.now value T total := by
    intro T hT
    obtain ⟨total, hzip⟩ := hl.exists_total hT
    refine ⟨total, hzip, (List.forall₂_iff_zip.mp hcom.linked).2 ?_⟩
    rwa [← hl.same]
  refine ⟨(hb.typed.exec hsep (hl.onLink hb.typed hcom)).2, ?_, ?_⟩
  · intro T hT m hm
    by_cases hjti : T.jti ∈ chain.map (·.jti)
    · obtain ⟨claims, hmem, hid⟩ := List.mem_map.mp hjti
      obtain ⟨total, hzip, -⟩ := htotal claims hmem
      rw [← hid] at hm ⊢
      rw [hl.exec_zset hsep (hb.typed.zset claims (hpresented claims hmem)) tr.member hzip] at hm
      have hin := (List.mem_filter.mp hm).1
      rcases List.mem_append.mp hin with hold | hone
      · have hlive := (List.mem_filter.mp hold).1
        rcases live_eq_or now (value (cfg.zsetKey claims.jti)) with heq | heq
        · rw [heq] at hlive
          obtain ⟨t, ht, hm⟩ := hb.members claims (hpresented claims hmem) m hlive
          exact ⟨t, List.mem_append_left _ ht, hm⟩
        · rw [heq] at hlive
          exact absurd hlive List.not_mem_nil
      · rw [List.mem_singleton.mp hone]
        exact ⟨tr, List.mem_append_right _ (List.mem_singleton_self _), rfl⟩
    · rw [(hl.exec_other hsep hT hjti).2] at hm
      obtain ⟨t, ht, hid⟩ := hb.members T hT m hm
      exact ⟨t, List.mem_append_left _ ht, hid⟩
  · intro T hT hone
    rw [chargesOn_append]
    by_cases hmem : T ∈ chain
    · obtain ⟨total, hzip, hlinked⟩ := htotal T hmem
      have hlive := hcom.live T hmem
      have hhash := htells (cfg.hashKey T.jti) (List.mem_flatMap.mpr ⟨T, hmem, by simp⟩)
      have hzset := htells (cfg.zsetKey T.jti) (List.mem_flatMap.mpr ⟨T, hmem, by simp⟩)
      rw [chargesOn_mem (by rwa [hl.same])]
      have hcharge : Chargeable T tr.commit.now := by
        obtain ⟨read, hread⟩ := hhash.read
        exact ⟨read, hread.ge, hread.trans_lt hlive⟩
      exact (hb.told T hT hone).snoc (hb.typed.hash T hT) hone.exact hhash.read hlive hhash.past
        (hhash.times T hT hone (Or.inl rfl)) (hhash.hash T hT hone rfl hcharge)
        (hzset.zset T hT hone rfl hcharge) (hnew T hT) hlinked
        (hl.exec_hash hsep (hb.typed.hash T hT) tr.member hzip)
        (hl.exec_zset hsep (hb.typed.zset T hT) tr.member hzip)
    · have hjti : T.jti ∉ chain.map (·.jti) := by
        intro hin
        obtain ⟨claims, hclaims, hid⟩ := List.mem_map.mp hin
        exact hmem (hone.unshared claims (hpresented claims hclaims) hid ▸ hclaims)
      rw [chargesOn_not_mem (by rwa [hl.same]), List.append_nil]
      exact (hb.told T hT hone).congr (hl.exec_other hsep hT hjti).1 (hl.exec_other hsep hT hjti).2

end Commit

end Books

/-! ## Runs -/

section Runs
variable {cfg : Config} {calls : C → Reservation}

/-- An event's transaction is what its client asked for. -/
def Requested (calls : C → Reservation) (e : Event C Key (Option Entry) Failure Transaction) : Prop :=
  ∀ tr, e.result = .ok tr →
    validated (calls e.client).chain (calls e.client).amount = .ok tr.amount ∧
      tr.commit.chain = (calls e.client).chain ∧ tr.member = (calls e.client).member

/-- The invariant of a run. -/
structure Inv [DecidableEq C] (cfg : Config) (calls : C → Reservation) (now : ℚ)
    (w : World C Key (Option Entry) Failure Transaction)
    (h : List (Event C Key (Option Entry) Failure Transaction)) : Prop where
  consistent : Consistent (system cfg calls) (fun _ _ => True)
    (Tells cfg calls now w.value (transactions h)) w
  logged : Logged w h
  requested : ∀ e ∈ h, Requested calls e
  books : Books cfg calls now w.value (transactions h)

theorem validated_eq_ok {chain : List CapabilityClaims} {amount : Value} {x : Binary64} :
    validated chain amount = .ok x ↔
      validatedAmount amount = .ok x ∧ chain ≠ [] ∧ (chain.map (·.jti)).Nodup := by
  simp only [validated, bind_eq_ok, raiseIf_eq_ok, pure_eq_ok, not_or, not_not]
  constructor
  · intro h
    obtain ⟨x', hx, u, hchain, rfl⟩ := h
    exact ⟨hx, hchain⟩
  · intro h
    exact ⟨x, h.1, (), h.2, rfl⟩

theorem guarded_attempt (cfg : Config) (chain : List CapabilityClaims) (x : Binary64) :
    (attempt cfg chain x).Guarded [] := by
  rw [attempt]
  apply guarded_watchAll_bind
  apply Guarded.bind guarded_clock
  intro now
  apply Guarded.bind (guarded_lift _)
  intro u
  refine Guarded.bind (guarded_mapM fun claims hmem => ?_) fun totals => trivial
  have hhash : cfg.hashKey claims.jti ∈ [] ++ cfg.keys chain :=
    List.mem_flatMap.mpr ⟨claims, hmem, by simp⟩
  have hzset : cfg.zsetKey claims.jti ∈ [] ++ cfg.keys chain :=
    List.mem_flatMap.mpr ⟨claims, hmem, by simp⟩
  rw [checkLink_eq]
  apply Guarded.bind ((guarded_read hhash).bind fun v => guarded_lift _)
  intro calls
  apply Guarded.bind ((guarded_read hhash).bind fun v => guarded_lift _)
  intro spent
  refine Guarded.bind ?_ fun recent => ?_
  · rw [recentCalls]
    split_ifs
    · exact (guarded_read hzset).bind fun v => guarded_lift _
    · trivial
  · apply (guarded_lift _).bind
    intro u
    apply (guarded_lift _).bind
    intro u
    apply (guarded_lift _).bind
    intro u
    trivial

theorem guarded_system (cfg : Config) (calls : C → Reservation) (c : C) (failed : ℕ) :
    ((system cfg calls).program c failed).Guarded [] := by
  simp only [system]
  split
  · trivial
  · exact (guarded_attempt _ _ _).bind fun commit => trivial

/-- A client that commits has gone through an attempt. -/
theorem attempt_of_program {c : C} {failed : ℕ} {trace : List (Reply Key (Option Entry))}
    {tr : Transaction} (hends : ((system cfg calls).program c failed).Ends trace (.ok tr)) :
    validated (calls c).chain (calls c).amount = .ok tr.amount ∧
      tr.member = (calls c).member ∧
      (attempt cfg (calls c).chain tr.amount).Ends trace (.ok tr.commit) := by
  simp only [system] at hends
  split at hends
  · exact absurd hends.2 error_ne_ok.symm
  · next x hx =>
      obtain ⟨commit, before, after, rfl, hattempt, hpure⟩ := ends_bind_ok.mp hends
      obtain ⟨rfl, htr⟩ := ends_pure.mp hpure
      obtain rfl := Except.ok.inj htr
      rw [List.append_nil]
      exact ⟨hx, rfl, hattempt⟩

theorem transactions_append (h h' : List (Event C Key (Option Entry) Failure Transaction)) :
    transactions (h ++ h') = transactions h ++ transactions h' := List.filterMap_append

variable [DecidableEq C] {w : World C Key (Option Entry) Failure Transaction}
  {h : List (Event C Key (Option Entry) Failure Transaction)} {now now' : ℚ}

theorem Inv.later (hinv : Inv cfg calls now w h) (hnow : now ≤ now') : Inv cfg calls now' w h where
  consistent c failed trace rest hstatus :=
    (hinv.consistent c failed trace rest hstatus).later (fun _ => le_rfl) (fun _ _ => rfl)
      (fun _ _ hseen => hseen) fun _ _ _ htells => htells.keep hnow rfl fun _ _ _ => rfl
  logged := hinv.logged
  requested := hinv.requested
  books := hinv.books.later hnow

/-- The client of a new event has logged nothing before. -/
theorem not_logged {w' : World C Key (Option Entry) Failure Transaction}
    {e : Event C Key (Option Entry) Failure Transaction} (hlog : Logged w' (h ++ [e])) :
    ∀ e' ∈ h, e'.client ≠ e.client := by
  intro e' he' heq
  have hmem : e' ∈ h.filter fun d => d.client = e.client :=
    List.mem_filter.mpr ⟨he', decide_eq_true heq⟩
  have hc := hlog e.client
  rw [List.filter_append, List.filter_cons_of_pos (by simp), List.filter_nil] at hc
  have hlen : 2 ≤ ((h.filter fun d => d.client = e.client) ++ [e]).length := by
    rw [List.length_append, List.length_singleton]
    have := List.length_pos_of_mem hmem
    omega
  cases hs : w'.status e.client with
  | idle =>
      rw [hs] at hc
      rw [hc] at hlen
      simp at hlen
  | running failed trace rest =>
      rw [hs] at hc
      rw [hc] at hlen
      simp at hlen
  | ended r =>
      rw [hs] at hc
      obtain ⟨trace, hc⟩ := hc
      rw [hc] at hlen
      simp at hlen

/-- What a step's event adds to the books. -/
theorem Inv.effect (hinv : Inv cfg calls now w h) (hsep : Separate calls)
    {event : Option (Event C Key (Option Entry) Failure Transaction)}
    {w' : World C Key (Option Entry) Failure Transaction} (hlog : Logged w' (h ++ event.toList))
    (heffect : Effect (system cfg calls) (fun _ _ => True)
      (Tells cfg calls now w.value (transactions h)) w now event w') :
    (∀ e ∈ event, Requested calls e) ∧
    Books cfg calls now w'.value (transactions (h ++ event.toList)) ∧
    ∀ k t, w'.version k = w.version k → Tells cfg calls now w.value (transactions h) k t →
      w'.value k = w.value k →
      Tells cfg calls now w'.value (transactions (h ++ event.toList)) k t := by
  cases heffect with
  | quiet w' hvalue hversion =>
      rw [Option.toList_none, List.append_nil, hvalue]
      exact ⟨fun e he => absurd he (Option.not_mem_none e), hinv.books, fun k t _ htells _ => htells⟩
  | raised w' hvalue hversion c failed trace e hends hseen =>
      have hsame : transactions (h ++ [(⟨c, trace, .error e⟩ : Event C Key (Option Entry) Failure
          Transaction)]) = transactions h := by
        rw [transactions_append]
        exact List.append_nil _
      rw [Option.toList_some, hsame, hvalue]
      refine ⟨?_, hinv.books, fun k t _ htells _ => htells⟩
      intro e' he' tr htr
      rw [← Option.some.inj he'] at htr
      exact absurd htr error_ne_ok
  | committed w' c failed trace tr hends hcurrent hfresh hvalue hversion =>
      have hone : transactions (h ++ [(⟨c, trace, .ok tr⟩ : Event C Key (Option Entry) Failure
          Transaction)]) = transactions h ++ [tr] := transactions_append _ _
      obtain ⟨hx, hmember, hattempt⟩ := attempt_of_program hends
      obtain ⟨-, hne, hdistinct⟩ := validated_eq_ok.mp hx
      have hpresented : ∀ claims ∈ (calls c).chain, Presented calls claims :=
        fun claims hmem => ⟨c, hmem⟩
      obtain ⟨hcom, htells⟩ := committed_of_ends hinv.books.typed hpresented hattempt hcurrent hfresh
      have hnew : ∀ jti, ∀ t ∈ transactions h, t.member jti ≠ tr.member jti := by
        intro jti t ht
        obtain ⟨e, he, het⟩ := List.mem_filterMap.mp ht
        have hok : e.result = .ok t := by
          cases hr : e.result with
          | error err =>
              rw [hr] at het
              exact absurd het (Option.some_ne_none t).symm
          | ok t' =>
              rw [hr] at het
              rw [Option.some.inj het]
        rw [(hinv.requested e he t hok).2.2, hmember]
        exact hsep.fresh _ _ jti (not_logged hlog e he)
      rw [Option.toList_some, hone, hvalue]
      have hwrite : (w.write ((system cfg calls).writes tr now)).value =
          (exec now (tr.commit.commands cfg tr.member) w.value).2 := modifyAll_writes _ _
      rw [hwrite]
      refine ⟨?_, hinv.books.commit hsep hcom hdistinct hpresented htells hnew, ?_⟩
      · intro e he tr' htr'
        rw [← Option.some.inj he] at htr' ⊢
        obtain rfl := Except.ok.inj htr'
        exact ⟨hx, hcom.same, hmember⟩
      · intro k t hk htells hsame
        refine htells.keep le_rfl hsame ?_
        intro T hT hkey
        rw [chargesOn_append, chargesOn_not_mem, List.append_nil]
        -- a key of the commit would have changed its version
        intro hmem
        have hl : Links calls (calls c).chain tr.commit := hcom.links hdistinct hpresented
        have hin : k ∈ ((system cfg calls).writes tr now).map Prod.fst := by
          obtain ⟨c, hc, hck⟩ := hl.exists_command cfg tr.member hmem hkey
          exact List.mem_map.mpr ⟨_, List.mem_map_of_mem hc, hck⟩
        rw [hversion] at hk
        simp only [World.write, if_pos hin] at hk
        omega
  | lapsed w' k v hlapse hw' =>
      simp only [system] at hlapse
      split_ifs at hlapse with hexpired
      obtain rfl := Option.some.inj hlapse
      have hvalue : w'.value = Function.update w.value k none := by
        rw [hw']
        rfl
      rw [Option.toList_none, List.append_nil, hvalue]
      refine ⟨fun e he => absurd he (Option.not_mem_none e),
        hinv.books.lapse hexpired.1 hexpired.2, ?_⟩
      intro k' t _ htells hsame
      exact htells.keep le_rfl hsame fun _ _ _ => rfl

/-- A client's turn is at a time that a clock reads. -/
def Timely (i : Action C Key × ℚ) : Prop := ∀ c, i.1 = .client c → ∃ read : Binary64, read.value = i.2

/-- **Every step keeps the invariant.** -/
theorem Inv.step (hinv : Inv cfg calls now w h) (hsep : Separate calls) (i : Action C Key × ℚ)
    (htimely : Timely i) (hnow : now ≤ i.2) :
    Inv cfg calls i.2 (Optimistic.step (system cfg calls) w i).2
      (h ++ (Optimistic.step (system cfg calls) w i).1.toList) := by
  obtain ⟨i, t⟩ := i
  have hlater := hinv.later hnow
  have hsys := guarded_system cfg calls
  have hfresh := fun c hc => hlater.books.tells (htimely c hc)
  have hlog := hlater.logged.step hlater.consistent hsys (fun _ => trivial) i hfresh
  have heffect := hlater.consistent.effect hsys (fun _ => trivial) i hfresh
  obtain ⟨hrequested, hbooks, hkeep⟩ := hlater.effect hsep hlog heffect
  refine ⟨?_, hlog, ?_, hbooks⟩
  · refine hlater.consistent.step hsys (fun _ => trivial) i hfresh rfl (fun _ _ hseen => hseen) ?_
    intro k u hversion htells
    exact hkeep k u hversion htells ((step_later (system cfg calls) w (i, t)).2 k hversion)
  · intro e he
    rcases List.mem_append.mp he with hold | hnew
    · exact hinv.requested e hold
    · exact hrequested e (Option.mem_toList.mp hnew)

theorem Inv.init (cfg : Config) (calls : C → Reservation) (now : ℚ) :
    Inv cfg calls now start [] where
  consistent := .init _ _ _ _
  logged := .init _
  requested _ he := absurd he List.not_mem_nil
  books :=
    { typed := ⟨fun _ _ => .nothing, fun _ _ => .nothing⟩
      members := fun _ _ _ hm => absurd hm List.not_mem_nil
      told := fun T _ _ =>
        { times := fun _ hch => absurd hch List.not_mem_nil
          hash := fun _ => .nil_none
          zset := fun _ => .nil T now _
          kept := fun _ hne => absurd rfl hne
          respects := .nil (allowance_nonNeg T) } }

/-- What has been committed for a client. -/
def transactionsOf (c : C) (h : List (Event C Key (Option Entry) Failure Transaction)) :
    List Transaction := transactions (h.filter fun e => e.client = c)

/-- What holds after every run, at the last time. -/
structure Held (cfg : Config) (calls : C → Reservation) (now : ℚ)
    (w : World C Key (Option Entry) Failure Transaction)
    (h : List (Event C Key (Option Entry) Failure Transaction)) : Prop where
  /-- The committed charges on a token respect its limits. -/
  respects : ∀ T, Sole calls T → Respects 60 (allowance T) (chargesOn T (transactions h))
  /-- While the token may be charged, its hash counts them. -/
  counted : ∀ T, Presented calls T → Sole calls T → Chargeable T now →
    hgetCalls (w.value (cfg.hashKey T.jti)) = .ok (chargesOn T (transactions h)).length
  /-- Its keys do not lapse before. -/
  kept : ∀ T, Presented calls T → Sole calls T → Chargeable T now →
    chargesOn T (transactions h) ≠ [] →
      Lasts (T.exp + retentionAfterExpSeconds) (w.value (cfg.hashKey T.jti)) ∧
      Lasts (T.exp + retentionAfterExpSeconds) (w.value (cfg.zsetKey T.jti))
  /-- No transaction meets a key of the other type. -/
  succeeds : ∀ commands, (∀ c ∈ commands, OnLink cfg calls c) → ∀ time,
    (exec time commands w.value).1 = true
  /-- A call that returned has charged its chain once. -/
  returned : ∀ c tr, w.status c = .ended (.ok tr) → transactionsOf c h = [tr] ∧
    tr.commit.chain = (calls c).chain ∧ validatedAmount (calls c).amount = .ok tr.amount
  /-- A call that raised, or is not done, has charged nothing. -/
  raised : ∀ c, (∀ tr, w.status c ≠ .ended (.ok tr)) → transactionsOf c h = []

theorem Inv.held (hinv : Inv cfg calls now w h) (hsep : Separate calls) : Held cfg calls now w h where
  respects T hone := by
    by_cases hT : Presented calls T
    · exact (hinv.books.told T hT hone).respects
    · have hnil : chargesOn T (transactions h) = [] := by
        rw [chargesOn, List.filterMap_eq_nil_iff]
        intro tr htr
        obtain ⟨e, he, het⟩ := List.mem_filterMap.mp htr
        rw [if_neg]
        intro hmem
        cases hr : e.result with
        | error err =>
            rw [hr] at het
            exact absurd het (Option.some_ne_none tr).symm
        | ok tr' =>
            rw [hr] at het
            obtain rfl := Option.some.inj het
            rw [(hinv.requested e he tr' hr).2.1] at hmem
            exact hT ⟨e.client, hmem⟩
      rw [hnil]
      exact .nil (allowance_nonNeg T)
  counted T hT hone hlive := by
    rw [(hinv.books.typed.hash T hT).calls, ((hinv.books.told T hT hone).hash hlive).calls]
  kept T hT hone := (hinv.books.told T hT hone).kept
  succeeds _ hcommands _ := (hinv.books.typed.exec hsep hcommands).1
  returned c tr hstatus := by
    have hlog := hinv.logged c
    rw [hstatus] at hlog
    obtain ⟨trace, htrace⟩ := hlog
    have hmem : (⟨c, trace, .ok tr⟩ : Event C Key (Option Entry) Failure Transaction) ∈ h := by
      apply List.mem_of_mem_filter (p := fun e => e.client = c)
      rw [htrace]
      exact List.mem_singleton_self _
    obtain ⟨hvalid, hchain, -⟩ := hinv.requested _ hmem tr rfl
    refine ⟨?_, hchain, (validated_eq_ok.mp hvalid).1⟩
    rw [transactionsOf, htrace]
    rfl
  raised c hstatus := by
    have hlog := hinv.logged c
    cases hc : w.status c with
    | idle =>
        rw [hc] at hlog
        rw [transactionsOf, hlog]
        rfl
    | running failed trace rest =>
        rw [hc] at hlog
        rw [transactionsOf, hlog]
        rfl
    | ended r =>
        rw [hc] at hlog
        obtain ⟨trace, htrace⟩ := hlog
        rw [transactionsOf, htrace]
        cases r with
        | error e => rfl
        | ok tr => exact absurd hc (hstatus tr)

/-- **Allowances hold however clients interleave.** In every run of calls on one database, with
one clock for the clients and the server, in which ids do not collide and members are fresh:
the committed charges on a token that alone has its id respect its limits; its keys count
them and stay set as long as a clock may read a time at which it is not refused; and a call
has charged its whole chain once if it returned, and nothing if not. -/
theorem redis_allowances_hold (cfg : Config) (calls : C → Reservation) (hsep : Separate calls)
    (actions : List (Action C Key × ℚ)) (hclock : (actions.map Prod.snd).Pairwise (· ≤ ·))
    (htimely : ∀ i ∈ actions, Timely i) :
    Held cfg calls ((actions.map Prod.snd).getLastD 0)
      (Runs.final (Optimistic.step (system cfg calls)) start actions)
      (Runs.log (Optimistic.step (system cfg calls)) start actions) := by
  have halong : Runs.Along (Optimistic.step (system cfg calls)) (fun _ i => Timely i) start actions := by
    rw [Runs.along_iff]
    intro before i after heq
    exact htimely i (heq ▸ List.mem_append_right _ List.mem_cons_self)
  have hrun := Runs.log_invariant (fun now w h => Inv cfg calls now w h)
    (fun _ _ _ i hinv htimely hnow => hinv.step hsep i htimely hnow) (Inv.init cfg calls) actions
    halong hclock
  exact hrun.held hsep

/-- Two clients present a token for one call. -/
def sampleReservation (c : Bool) : Reservation where
  chain := [sampleOnce]
  amount := .scalar (.int 0)
  member _ := if c then lit "m1" else lit "m2"

/-- One client watches and reads, the other commits, the first is aborted and tries again. -/
def sampleTurns : List (Action Bool Key × ℚ) :=
  [true, true, true, true, true, false, false, false, false, false, false, true, true, true, true,
    true].map fun c => (.client c, 1001)

theorem separate_sample : Separate sampleReservation where
  apart T T' hT hT' := by
    obtain ⟨c, hc⟩ := hT
    obtain ⟨c', hc'⟩ := hT'
    rw [List.mem_singleton.mp hc, List.mem_singleton.mp hc']
    decide
  fresh c c' _ hne heq := by
    have hmembers : lit "m1" ≠ lit "m2" := by decide
    cases c <;> cases c'
    · exact hne rfl
    · exact hmembers heq.symm
    · exact hmembers heq
    · exact hne rfl

theorem timely_sample (i : Action Bool Key × ℚ) (hi : i ∈ sampleTurns) : Timely i := by
  obtain ⟨c, -, rfl⟩ := List.mem_map.mp hi
  intro _ _
  exact Binary64.exists_value_eq (n := 1001) (by norm_num) (by norm_num) (by norm_num)

set_option maxRecDepth 100000 in
theorem redis_allowances_hold_sample :
    Held {} sampleReservation 1001
      (Runs.final (Optimistic.step (system {} sampleReservation)) start sampleTurns)
      (Runs.log (Optimistic.step (system {} sampleReservation)) start sampleTurns) ∧
    (Runs.log (Optimistic.step (system {} sampleReservation)) start sampleTurns).map
      (fun e => (e.client, e.result.toOption.isSome)) = [(false, true), (true, false)] :=
  ⟨redis_allowances_hold {} sampleReservation separate_sample sampleTurns (by decide +kernel)
    timely_sample, by decide +kernel⟩

end Runs

end SwarmAuth.Python.RedisUsageTracker
