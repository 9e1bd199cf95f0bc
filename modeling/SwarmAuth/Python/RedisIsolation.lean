import SwarmAuth.Python.RedisUsage
import SwarmAuth.Lib.Isolation
import SwarmAuth.Python.Verify

/-!
# Isolation of token usage in Redis

The hash of a token is under the prefix and its id, its sorted set under the same with
`:calls` after it. Ids are any texts: one that ends in `:calls` has its hash where another
token has its sorted set. Two sets of ids do not disturb each other exactly when no id of
one is an id of the other with that suffix.

## Main definitions

* `Config.keysOf`, `Isolated` — the keys of a set of ids, and their isolation.
* `local_checkAndRecordChain` — a call uses the keys of its chain.
* `isolated_iff` — when two sets of ids are isolated.
-/
namespace SwarmAuth.Python.RedisUsageTracker

open Optimistic Optimistic.Attempt

/-! ## Keys -/

/-- The suffix of the sorted set's key. -/
def callsSuffix : Units := lit ":calls"

/-- The keys of these token ids. -/
def Config.keysOf (cfg : Config) (ids : Set Units) : Set Key :=
  {k | ∃ jti ∈ ids, k = cfg.hashKey jti ∨ k = cfg.zsetKey jti}

/-- The token ids of a call. -/
def Call.ids (c : Call) : Set Units := {jti | ∃ claims ∈ c.chain, claims.jti = jti}

theorem mem_keys {cfg : Config} {c : Call} {k : Key} :
    k ∈ cfg.keys c.chain ↔ k ∈ cfg.keysOf c.ids := by
  simp [Config.keys, Config.keysOf, Call.ids]

/-- Whose calls are whose. -/
def Over (A B : Set Units) (calls : List (Bool × Call)) : Prop :=
  ∀ p ∈ calls, p.2.ids ⊆ if p.1 then A else B

/-- One call of one side. -/
def step (cfg : Config) (s : State) (p : Bool × Call) : Except Failure Unit × State :=
  checkAndRecordChain cfg p.2 s

/-- **Isolation**: on either side the calls end as they do without those of the other, and
leave the same under the side's keys. -/
def Isolated (cfg : Config) (A B : Set Units) : Prop :=
  ∀ calls, Over A B calls → ∀ side : Bool,
    Isolation.answers (step cfg) (fun p => p.1 = side) (fun _ => none) calls =
        Isolation.answers (step cfg) (fun p => p.1 = side) (fun _ => none)
          (calls.filter fun p => p.1 = side) ∧
      ∀ k ∈ cfg.keysOf (if side then A else B),
        Isolation.final (step cfg) (fun _ => none) calls k =
          Isolation.final (step cfg) (fun _ => none) (calls.filter fun p => p.1 = side) k

/-- No id of one side is an id of the other with the suffix. -/
def Apart (A B : Set Units) : Prop :=
  ∀ a ∈ A, ∀ b ∈ B, b ≠ a ++ callsSuffix ∧ a ≠ b ++ callsSuffix

theorem Config.hashKey_inj {cfg : Config} {a b : Units} : cfg.hashKey a = cfg.hashKey b ↔ a = b :=
  List.append_right_inj _

theorem Config.zsetKey_inj {cfg : Config} {a b : Units} : cfg.zsetKey a = cfg.zsetKey b ↔ a = b := by
  rw [zsetKey, zsetKey, List.append_left_inj, List.append_right_inj]

/-- Two keys meet where one id is the other with the suffix. -/
theorem Config.hashKey_eq_zsetKey {cfg : Config} {a b : Units} :
    cfg.hashKey a = cfg.zsetKey b ↔ a = b ++ callsSuffix := by
  rw [hashKey, zsetKey, List.append_assoc, List.append_right_inj, callsSuffix]

theorem keysOf_mono {cfg : Config} {A B : Set Units} (h : A ⊆ B) : cfg.keysOf A ⊆ cfg.keysOf B :=
  fun _ ⟨jti, hjti, hk⟩ => ⟨jti, h hjti, hk⟩

/-- Sets of ids that are apart share no key. -/
theorem disjoint_keysOf {cfg : Config} {A B : Set Units} (hAB : Disjoint A B) (h : Apart A B) :
    Disjoint (cfg.keysOf A) (cfg.keysOf B) := by
  rw [Set.disjoint_left]
  intro k hA hB
  obtain ⟨a, ha, hka⟩ := hA
  obtain ⟨b, hb, hkb⟩ := hB
  obtain ⟨hba, hab⟩ := h a ha b hb
  have hne : a ≠ b := fun heq => Set.disjoint_left.mp hAB ha (heq ▸ hb)
  rcases hka with rfl | rfl <;> rcases hkb with hk | hk
  · exact hne (Config.hashKey_inj.mp hk)
  · exact hab (Config.hashKey_eq_zsetKey.mp hk)
  · exact hba (Config.hashKey_eq_zsetKey.mp hk.symm)
  · exact hne (Config.zsetKey_inj.mp hk)

/-! ## A call uses its keys -/

section Locality
variable {cfg : Config} {time now : ℚ} {value value' : Key → Option Entry}

/-- Mapping functions that agree on the list. -/
theorem mapM_congr_of_mem {α β ε : Type} {f g : α → Except ε β} {l : List α}
    (h : ∀ a ∈ l, f a = g a) : l.mapM f = l.mapM g := by
  induction l with
  | nil => rfl
  | cons a l ih =>
      rw [List.forall_mem_cons] at h
      rw [List.mapM_cons, List.mapM_cons, h.1, ih h.2]

/-- The checks on a link read its two keys. -/
theorem run_checkLink_congr {x : Binary64} {claims : CapabilityClaims}
    (hhash : value (cfg.hashKey claims.jti) = value' (cfg.hashKey claims.jti))
    (hzset : value (cfg.zsetKey claims.jti) = value' (cfg.zsetKey claims.jti)) :
    (checkLink cfg x now claims).run value now = (checkLink cfg x now claims).run value' now := by
  cases hrate : claims.constraints.rateLimitPerMin.isSome with
  | false =>
      simp only [checkLink, run_bind, run_read, run_lift, run_pure, hrate, hhash,
        Bool.false_eq_true, if_false]
  | true => simp only [checkLink, run_bind, run_read, run_lift, run_pure, hrate, hhash, if_true, hzset]

/-- An attempt on its own: expiry, then the checks on each link. -/
theorem run_attempt {x : Binary64} {chain : List CapabilityClaims} :
    (attempt cfg chain x).run value now = do
      raiseIf (chain.any fun claims => claims.exp + retentionAfterExpSeconds ≤ now)
        (.raised (.of .tokenExpired [.text "Token expired before usage reservation"]))
      let totals ← chain.mapM fun claims => (checkLink cfg x now claims).run value now
      return ⟨chain, now, totals⟩ := by
  simp only [attempt, run_bind, run_watchAll, run_clock, run_lift, run_mapM, run_pure]
  rfl

/-- An attempt reads the keys of its chain. -/
theorem run_attempt_congr {x : Binary64} {chain : List CapabilityClaims}
    (h : ∀ k ∈ cfg.keys chain, value k = value' k) :
    (attempt cfg chain x).run value now = (attempt cfg chain x).run value' now := by
  have hlinks : (chain.mapM fun claims => (checkLink cfg x now claims).run value now) =
      chain.mapM fun claims => (checkLink cfg x now claims).run value' now := by
    refine mapM_congr_of_mem fun claims hmem => run_checkLink_congr (h _ ?_) (h _ ?_)
    · exact List.mem_flatMap.mpr ⟨claims, hmem, by simp⟩
    · exact List.mem_flatMap.mpr ⟨claims, hmem, by simp⟩
  rw [run_attempt, run_attempt, hlinks]

/-- A transaction changes only the keys of its commands. -/
theorem exec_of_not_mem {commands : List Command} {s : State} {k : Key}
    (hk : ∀ c ∈ commands, c.key ≠ k) : (exec time commands s).2 k = s k := by
  induction commands generalizing s with
  | nil => rfl
  | cons c cs ih =>
      rw [List.forall_mem_cons] at hk
      rw [exec, ih hk.2, Function.update_of_ne (Ne.symm hk.1)]

variable (time) in
/-- A transaction depends only on the keys of its commands. -/
theorem exec_congr {commands : List Command} {s s' : State} {P : Set Key}
    (hkeys : ∀ c ∈ commands, c.key ∈ P) (hs : ∀ k ∈ P, s k = s' k) :
    (exec time commands s).1 = (exec time commands s').1 ∧
      ∀ k ∈ P, (exec time commands s).2 k = (exec time commands s').2 k := by
  induction commands generalizing s s' with
  | nil => exact ⟨rfl, hs⟩
  | cons c cs ih =>
      rw [List.forall_mem_cons] at hkeys
      have hnext : ∀ k ∈ P, Function.update s c.key (c.apply time (s c.key)) k =
          Function.update s' c.key (c.apply time (s' c.key)) k := by
        intro k hk
        rw [hs _ hkeys.1, Function.update_apply, Function.update_apply]
        split_ifs
        · rfl
        · exact hs k hk
      obtain ⟨hok, hafter⟩ := ih hkeys.2 hnext
      simp only [exec]
      rw [hs _ hkeys.1] at hok hafter ⊢
      exact ⟨by rw [hok], hafter⟩

/-- The commands of a transaction are on the keys of its chain. -/
theorem key_mem_keys {member : Units → Units} {charges : Commit} {c : Command}
    (hc : c ∈ charges.commands cfg member) : c.key ∈ cfg.keys charges.chain := by
  obtain ⟨p, hp, hc⟩ := List.mem_flatMap.mp hc
  refine List.mem_flatMap.mpr ⟨p.1, (List.of_mem_zip hp).1, ?_⟩
  simp only [Config.charge, List.mem_cons, List.not_mem_nil, or_false] at hc
  rcases hc with rfl | rfl | rfl | rfl | rfl | rfl <;> simp [Command.key]

/-- What an attempt charges is its chain. -/
theorem chain_of_attempt {x : Binary64} {chain : List CapabilityClaims} {charges : Commit}
    (h : (attempt cfg chain x).run value now = .ok charges) : charges.chain = chain := by
  simp only [attempt, run_bind, run_watchAll, run_clock, run_lift] at h
  obtain ⟨-, -, h⟩ := bind_eq_ok.mp h
  obtain ⟨now', -, h⟩ := bind_eq_ok.mp h
  obtain ⟨-, -, h⟩ := bind_eq_ok.mp h
  obtain ⟨totals, -, h⟩ := bind_eq_ok.mp h
  rw [run_pure] at h
  rw [← Except.ok.inj h]

/-- A call ends the same where its keys hold the same. -/
theorem call_congr {s s' : State} {p : Bool × Call} (hs : ∀ k ∈ cfg.keysOf p.2.ids, s k = s' k) :
    (step cfg s p).1 = (step cfg s' p).1 ∧
      ∀ k ∈ cfg.keysOf p.2.ids, (step cfg s p).2 k = (step cfg s' p).2 k := by
  simp only [step, checkAndRecordChain]
  cases hv : validated p.2.chain p.2.amount with
  | error e => exact ⟨rfl, hs⟩
  | ok x =>
      have hattempt : (attempt cfg p.2.chain x).run (fun k => live p.2.serverTime (s k)) p.2.now =
          (attempt cfg p.2.chain x).run (fun k => live p.2.serverTime (s' k)) p.2.now :=
        run_attempt_congr fun k hk => congrArg (live _) (hs k (mem_keys.mp hk))
      cases hrun : (attempt cfg p.2.chain x).run (fun k => live p.2.serverTime (s' k)) p.2.now with
      | error e => simp only [hattempt, hrun]; exact ⟨trivial, hs⟩
      | ok charges =>
          have hkeys : ∀ c ∈ charges.commands cfg p.2.member, c.key ∈ cfg.keysOf p.2.ids := by
            intro c hc
            rw [← mem_keys, ← chain_of_attempt hrun]
            exact key_mem_keys hc
          obtain ⟨hok, hafter⟩ := exec_congr p.2.serverTime hkeys hs
          simp only [hattempt, hrun, hok]
          exact ⟨trivial, hafter⟩

/-- **A call uses the keys of its chain.** -/
theorem local_step : Isolation.Local (step cfg) (fun p => cfg.keysOf p.2.ids) where
  frame := by
    intro s p k hk
    simp only [step, checkAndRecordChain]
    cases hv : validated p.2.chain p.2.amount with
    | error e => rfl
    | ok x =>
        cases hrun : (attempt cfg p.2.chain x).run (fun k => live p.2.serverTime (s k)) p.2.now with
        | error e => simp only [hrun]
        | ok charges =>
            simp only [hrun]
            refine exec_of_not_mem fun c hc heq => hk (mem_keys.mp ?_)
            rw [← chain_of_attempt hrun, ← heq]
            exact key_mem_keys hc
  answer := fun s s' p hs => (call_congr hs).1
  value := fun s s' p hs => (call_congr hs).2

end Locality

/-! ## When sets of ids are isolated -/

theorem sampleClaims_valid {jti : Units} (h : nonEmptyText jti = true) :
    { sampleClaims.toClaimFields with jti := jti }.valid = true := by
  have hvalid := sampleClaims.valid
  simp only [ClaimFields.valid, Bool.and_eq_true] at hvalid ⊢
  exact ⟨⟨⟨⟨hvalid.1.1.1.1, h⟩, hvalid.1.1.2⟩, hvalid.1.2⟩, hvalid.2⟩

/-- Claims with this token id. -/
def probeClaims (jti : Units) (h : nonEmptyText jti = true) : CapabilityClaims :=
  ⟨{ sampleClaims.toClaimFields with jti := jti }, sampleClaims_valid h⟩

/-- A free call on them. -/
def probe (jti : Units) (h : nonEmptyText jti = true) : Call :=
  ⟨[probeClaims jti h], .scalar (.int 0), 0, 0, id⟩

theorem probe_ids {jti : Units} {h : nonEmptyText jti = true} : (probe jti h).ids = {jti} := by
  ext j
  simp [Call.ids, probe, probeClaims, eq_comm]

theorem validated_probe {jti : Units} {h : nonEmptyText jti = true} :
    ∃ x, validated (probe jti h).chain (probe jti h).amount = .ok x :=
  ⟨_, rfl⟩

theorem not_expired_probe {jti : Units} {h : nonEmptyText jti = true} :
    ¬ ((probe jti h).chain.any fun claims =>
      (claims.exp : ℚ) + retentionAfterExpSeconds ≤ 0) = true := by
  simp only [probe, probeClaims, sampleClaims, retentionAfterExpSeconds, maxLeewaySeconds,
    List.any_cons, List.any_nil, Bool.or_false]
  norm_num

/-- After a free call where no key is set, its sorted set is there. -/
theorem checkAndRecordChain_probe (cfg : Config) {jti : Units} (h : nonEmptyText jti = true) {s : State}
    (hhash : s (cfg.hashKey jti) = none) (hzset : s (cfg.zsetKey jti) = none) :
    (checkAndRecordChain cfg (probe jti h) s).1 = .ok () ∧
      ∃ members expiry, (checkAndRecordChain cfg (probe jti h) s).2 (cfg.zsetKey jti) =
        some ⟨.zset members, some expiry⟩ ∧ 0 < expiry := by
  obtain ⟨x, hx⟩ := validated_probe (h := h)
  have hlink : (checkLink cfg x 0 (probeClaims jti h)).run (fun k => live 0 (s k)) 0 =
      .ok (decimalSum ⟨0, 0⟩ x) := by
    have hcalls : live 0 (s (cfg.hashKey (probeClaims jti h).jti)) = none := by
      rw [show (probeClaims jti h).jti = jti from rfl, hhash]
      rfl
    simp only [checkLink, run_bind, run_read, run_lift, hcalls]
    rfl
  have hrun : (attempt cfg (probe jti h).chain x).run (fun k => live 0 (s k)) 0 =
      .ok ⟨(probe jti h).chain, 0, [decimalSum ⟨0, 0⟩ x]⟩ := by
    rw [run_attempt]
    refine bind_eq_ok.mpr ⟨(), raiseIf_eq_ok.mpr not_expired_probe, bind_eq_ok.mpr ⟨_, ?_, rfl⟩⟩
    simp only [probe, List.mapM_cons, List.mapM_nil, hlink]
    rfl
  have hne : cfg.hashKey jti ≠ cfg.zsetKey jti := by
    intro heq
    simpa [callsSuffix, lit] using Config.hashKey_eq_zsetKey.mp heq
  have hdone : checkAndRecordChain cfg (probe jti h) s =
      (let done := exec 0 (cfg.charge jti 0 (probeClaims jti h) (decimalSum ⟨0, 0⟩ x)) s
       (if done.1 then .ok () else .error .wrongType, done.2)) := by
    simp only [checkAndRecordChain, hx]
    rw [show (probe jti h).serverTime = 0 from rfl, show (probe jti h).now = 0 from rfl, hrun]
    simp only [Commit.commands, probe, List.zip_cons_cons, List.zip_nil_right, List.flatMap_cons,
      List.flatMap_nil, List.append_nil]
    rfl
  rw [hdone]
  simp only [exec, Config.charge, Command.key]
  rw [show (probeClaims jti h).jti = jti from rfl]
  have hkept : [(jti, (0 : ℚ))].filter (fun m => (0 : ℚ) - 60 ≤ m.2) = [(jti, 0)] := by
    norm_num
  simp only [Command.apply, Command.reply, live, Function.update_self, Function.update_of_ne hne,
    Function.update_of_ne hne.symm, hhash, hzset, hkept, Option.filter_none, Option.filter_some,
    Option.all_none, if_true, Option.getD_some, Option.isSome_some, Bool.true_and,
    List.cons_ne_nil, if_false]
  refine ⟨trivial, _, _, rfl, ?_⟩
  have hpos := cfg.positive
  have hle : cfg.keyTtlSeconds ≤ cfg.timeToLive (probeClaims jti h) 0 := le_max_left _ _
  rw [zero_add]
  exact_mod_cast hpos.trans_le hle

/-- A free call where the hash's key holds a sorted set fails. -/
theorem checkAndRecordChain_wrongType {cfg : Config} {jti : Units} (h : nonEmptyText jti = true)
    {s : State} {members : List (Units × ℚ)} {expiry : ℚ} (hpos : 0 < expiry)
    (hhash : s (cfg.hashKey jti) = some ⟨.zset members, some expiry⟩) :
    (checkAndRecordChain cfg (probe jti h) s).1 = .error .wrongType := by
  obtain ⟨x, hx⟩ := validated_probe (h := h)
  have hcalls : live 0 (s (cfg.hashKey (probeClaims jti h).jti)) =
      some ⟨.zset members, some expiry⟩ := by
    rw [show (probeClaims jti h).jti = jti from rfl, hhash, live, Option.filter_some, if_pos]
    exact decide_eq_true hpos
  have hlink : (checkLink cfg x 0 (probeClaims jti h)).run (fun k => live 0 (s k)) 0 =
      .error .wrongType := by
    simp only [checkLink, run_bind, run_read, run_lift, hcalls]
    rfl
  have hrun : (attempt cfg (probe jti h).chain x).run (fun k => live 0 (s k)) 0 =
      .error .wrongType := by
    rw [run_attempt, (raiseIf_eq_ok (u := ())).mpr not_expired_probe]
    simp only [probe, List.mapM_cons, List.mapM_nil, hlink]
    rfl
  simp only [checkAndRecordChain, hx]
  rw [show (probe jti h).serverTime = 0 from rfl, show (probe jti h).now = 0 from rfl, hrun]

/-- A call on one id spoils the next call, on that id with the suffix. -/
theorem answers_probe (cfg : Config) (side : Bool) {x y : Units} (hx : nonEmptyText x = true)
    (hy : nonEmptyText y = true) (hxy : y = x ++ callsSuffix) :
    Isolation.answers (step cfg) (fun p => p.1 = !side) (fun _ => none)
        [(side, probe x hx), (!side, probe y hy)] = [.error .wrongType] ∧
      Isolation.answers (step cfg) (fun p => p.1 = !side) (fun _ => none)
        [(!side, probe y hy)] = [.ok ()] := by
  have hfirst : ((step cfg (fun _ => none) (side, probe x hx)).2) (cfg.zsetKey x) =
      ((step cfg (fun _ => none) (side, probe x hx)).2) (cfg.hashKey y) := by
    rw [Config.hashKey_eq_zsetKey.mpr hxy]
  obtain ⟨-, members, expiry, hzset, hpos⟩ := checkAndRecordChain_probe cfg hx (s := fun _ => none) rfl rfl
  have hspoiled := checkAndRecordChain_wrongType hy hpos (hfirst.symm.trans hzset)
  have halone := (checkAndRecordChain_probe cfg hy (s := fun _ => none) rfl rfl).1
  constructor
  · simp only [Isolation.answers, Isolation.watch, Runs.log, step] at hspoiled ⊢
    simp [hspoiled]
  · simp only [Isolation.answers, Isolation.watch, Runs.log, step]
    simp [halone]

/-- An id of one side that is one of the other with the suffix breaks the isolation. -/
theorem not_isolated {cfg : Config} {A B : Set Units} (side : Bool) {x y : Units}
    (hx : nonEmptyText x = true) (hy : nonEmptyText y = true) (hxy : y = x ++ callsSuffix)
    (hover : Over A B [(side, probe x hx), (!side, probe y hy)]) : ¬ Isolated cfg A B := by
  intro h
  obtain ⟨hboth, halone⟩ := answers_probe cfg side hx hy hxy
  have hsame := (h _ hover !side).1
  rw [hboth, List.filter_cons_of_neg (by simp), List.filter_cons_of_pos (by simp), List.filter_nil,
    halone] at hsame
  cases hsame

/-- **Isolation**: exactly of sets of ids that are apart. -/
theorem isolated_iff (cfg : Config) (A B : Set Units) (hA : ∀ a ∈ A, nonEmptyText a = true)
    (hB : ∀ b ∈ B, nonEmptyText b = true) (hAB : Disjoint A B) :
    Isolated cfg A B ↔ Apart A B := by
  constructor
  · intro h a ha b hb
    constructor
    · intro hba
      refine not_isolated true (hA a ha) (hB b hb) hba ?_ h
      simp [Over, probe_ids, ha, hb]
    · intro hab
      refine not_isolated false (hB b hb) (hA a ha) hab ?_ h
      simp [Over, probe_ids, ha, hb]
  · intro h calls hover side
    have hdisjoint : Disjoint (cfg.keysOf (if side then B else A))
        (cfg.keysOf (if side then A else B)) := by
      cases side
      · exact disjoint_keysOf hAB h
      · exact (disjoint_keysOf hAB h).symm
    refine local_step.answers_filter ?_ ?_ fun _ _ => rfl
    · intro p hp hside
      rw [← of_decide_eq_true hside]
      exact keysOf_mono (hover p hp)
    · intro p hp hside
      refine hdisjoint.mono_left (keysOf_mono ?_)
      have hother : p.1 = !side := Bool.eq_not_of_ne (of_decide_eq_false hside)
      have hids := hover p hp
      rw [hother] at hids
      cases side
      · exact hids
      · exact hids

/-! ## Two ids that meet -/

/-- The ids `a` and `a:calls` are not isolated. -/
theorem suffixed_id_disturbs :
    ∃ A B : Set Units, (∀ a ∈ A, nonEmptyText a = true) ∧ (∀ b ∈ B, nonEmptyText b = true) ∧
      Disjoint A B ∧ ¬ Isolated {} A B := by
  refine ⟨{lit "a"}, {lit "a:calls"}, ?_, ?_, ?_, ?_⟩
  · rintro a rfl
    decide
  · rintro b rfl
    decide
  · rw [Set.disjoint_singleton]
    decide
  · refine not_isolated true (x := lit "a") (y := lit "a:calls") (by decide) (by decide)
      (by decide) ?_
    simp [Over, probe_ids]

theorem isolated_iff_sample : Isolated {} {lit "a"} {lit "b"} :=
  (isolated_iff {} {lit "a"} {lit "b"} (by rintro a rfl; decide) (by rintro b rfl; decide)
    (by rw [Set.disjoint_singleton]; decide)).mpr (by
      rintro a rfl b rfl
      decide)

end SwarmAuth.Python.RedisUsageTracker
