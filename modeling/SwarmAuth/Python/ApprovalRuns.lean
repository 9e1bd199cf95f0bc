import SwarmAuth.Python.Approvals
import SwarmAuth.Python.Usage
import SwarmAuth.Lib.Runs

/-!
# Approvals over a run

The history of a store is the approvals put into it, the invalidations, and the calls it
let through. An approval is current from its entry until something ends it: a later
approval of its resource, an invalidation, or the call it authorizes. In every run each
call that returns used up an approval that was current.

## Main definitions

* `Current` — approved, and not ended since.
* `Granted`, `Sound` — what a consumed approval was, and what a history and a world owe.
* `Inv` — the invariant of the steps.
* `approvals_single_use` — every run is sound.
-/
namespace SwarmAuth.Python.Approvals

variable {C σ : Type}

/-! ## Histories -/

/-- The approvals of a history, in order. -/
def approvals (h : List (Event C)) : List Approval :=
  h.filterMap fun e => match e with
    | .approved _ a => some a
    | _ => none

/-- What ends an approval: one of the same resource, an invalidation, its use. -/
def Event.Ends (a : Approval) : Event C → Prop
  | .approved _ b => b.resourceId = a.resourceId
  | .invalidated resourceId => resourceId = a.resourceId
  | .clockRead _ _ => False
  | .authorized _ b _ => b.id = a.id

/-- The approval was given, and nothing has ended it since. -/
def Current (h : List (Event C)) (a : Approval) : Prop :=
  ∃ c before after, h = before ++ .approved c a :: after ∧ ∀ e ∈ after, ¬ e.Ends a

theorem mem_approvals {h : List (Event C)} {a : Approval} :
    a ∈ approvals h ↔ ∃ c, .approved c a ∈ h := by
  rw [approvals, List.mem_filterMap]
  constructor
  · intro hmem
    obtain ⟨e, he, hea⟩ := hmem
    cases e with
    | approved c b => exact ⟨c, Option.some.inj hea ▸ he⟩
    | invalidated resourceId => simp at hea
    | clockRead c now => simp at hea
    | authorized c b now => simp at hea
  · intro hmem
    obtain ⟨c, hc⟩ := hmem
    exact ⟨_, hc, rfl⟩

theorem approvals_append (h t : List (Event C)) : approvals (h ++ t) = approvals h ++ approvals t :=
  List.filterMap_append

theorem mem_approvals_append {h : List (Event C)} {a : Approval} (ha : a ∈ approvals h)
    (t : List (Event C)) : a ∈ approvals (h ++ t) := by
  rw [approvals_append]
  exact List.mem_append_left _ ha

theorem Current.mem {h : List (Event C)} {a : Approval} (hc : Current h a) : a ∈ approvals h := by
  obtain ⟨c, before, after, rfl, -⟩ := hc
  exact mem_approvals.mpr ⟨c, by simp⟩

theorem current_approved (h : List (Event C)) (c : C) (a : Approval) :
    Current (h ++ [.approved c a]) a :=
  ⟨c, h, [], rfl, by simp⟩

/-- What does not end an approval leaves it current. -/
theorem Current.snoc {h : List (Event C)} {a : Approval} (hc : Current h a) {e : Event C}
    (he : ¬ e.Ends a) : Current (h ++ [e]) a := by
  obtain ⟨c, before, after, rfl, hafter⟩ := hc
  refine ⟨c, before, after ++ [e], by simp, ?_⟩
  intro e' he'
  rcases List.mem_append.mp he' with hold | hnew
  · exact hafter e' hold
  · rw [List.mem_singleton.mp hnew]
    exact he

/-- What ends an approval does so at once. -/
theorem not_current_snoc {h : List (Event C)} {a : Approval} {e : Event C} (he : e.Ends a)
    (hne : ∀ c, e ≠ .approved c a) : ¬ Current (h ++ [e]) a := by
  intro hc
  obtain ⟨c, before, after, heq, hafter⟩ := hc
  rcases List.eq_nil_or_concat' after with rfl | ⟨l, e', rfl⟩
  · exact hne c (List.cons.inj (List.append_inj' heq rfl).2).1
  · rw [← List.cons_append, ← List.append_assoc] at heq
    obtain rfl := (List.cons.inj (List.append_inj' heq rfl).2).1
    exact hafter e (by simp) he

/-- Two approvals of a history with one id are one. -/
theorem eq_of_id {h : List (Event C)} (hd : ((approvals h).map Approval.id).Nodup) {a b : Approval}
    (ha : a ∈ approvals h) (hb : b ∈ approvals h) (hid : a.id = b.id) : a = b :=
  List.inj_on_of_nodup_map hd ha hb hid

/-- **What is ended stays ended**: an approval of a history that is current later was
current all along. -/
theorem Current.before {h t : List (Event C)} {a : Approval}
    (hd : ((approvals (h ++ t)).map Approval.id).Nodup) (ha : a ∈ approvals h)
    (hc : Current (h ++ t) a) : Current h a := by
  obtain ⟨c, before, after, heq, hafter⟩ := hc
  rcases List.append_eq_append_iff.mp heq with ⟨l, rfl, hl⟩ | ⟨l, rfl, hl⟩
  · -- given in `t`, and in `h` already
    rw [approvals_append, List.map_append, List.nodup_append] at hd
    refine absurd rfl (hd.2.2 a.id (List.mem_map_of_mem ha) a.id (List.mem_map_of_mem ?_))
    rw [hl]
    exact mem_approvals.mpr ⟨c, by simp⟩
  · cases l with
    | nil =>
        rw [approvals_append, List.map_append, List.nodup_append] at hd
        rw [List.append_nil] at hd ha
        refine absurd rfl (hd.2.2 a.id (List.mem_map_of_mem ha) a.id (List.mem_map_of_mem ?_))
        rw [List.nil_append] at hl
        rw [← hl]
        exact mem_approvals.mpr ⟨c, by simp⟩
    | cons e l =>
        rw [List.cons_append, List.cons.injEq] at hl
        obtain ⟨rfl, rfl⟩ := hl
        refine ⟨c, before, l, rfl, ?_⟩
        intro e he
        exact hafter e (List.mem_append_left _ he)

/-! ## What a run owes -/

/-- The call is for this approval, one of the history. -/
def Granted (s : Service C σ) (h : List (Event C)) (c : C) (a : Approval) : Prop :=
  a ∈ approvals h ∧ ∃ r, s.request c = .authorize r ∧ r.Matches s.sha256 a

/-- The client reads the clock at `now` after this part of the history. -/
def ReadsAfter (before h : List (Event C)) (c : C) (now : ℚ) : Prop :=
  before = h ∨ ∃ after, h = before ++ .clockRead c now :: after

/-- Used up, after this history, by a call it was current for, and unexpired and current at
the clock read. -/
structure Consumed (s : Service C σ) (h : List (Event C)) (c : C) (a : Approval) (now : ℚ) : Prop where
  granted : Granted s h c a
  current : Current h a
  unexpired : now < a.expiresAt
  read : ∃ before, ReadsAfter before h c now ∧ Current before a

/-! ## The invariant -/

/-- Since this version of the key, the approval is the active one. -/
def Watched (w : World C σ) (a : Approval) (key : Units) (version : ℕ) : Prop :=
  version ≤ w.version key ∧ (w.version key = version → w.active key = some a.id)

/-- What a call knows in each phase. -/
def Holds (s : Service C σ) (w : World C σ) (h : List (Event C)) (c : C) : Phase → Prop
  | .checked a | .timed a _ => ∃ r, s.request c = .approve r ∧ a.id = r.id
  | .got a | .unexpired a | .active a => a ∈ approvals h
  | .verified a _ _ => Granted s h c a
  | .watching a _ _ key version =>
      Granted s h c a ∧ s.key a.resourceId = .ok key ∧ version ≤ w.version key
  | .read a _ _ key version =>
      Granted s h c a ∧ s.key a.resourceId = .ok key ∧ Watched w a key version
  | .ready a _ _ key version now =>
      Granted s h c a ∧ s.key a.resourceId = .ok key ∧ Watched w a key version ∧
        now < a.expiresAt ∧ (w.version key = version →
          ∃ before after, h = before ++ .clockRead c now :: after ∧ Current before a)
  | .returned _ => ∃ a now, .authorized c a now ∈ h
  | _ => True

/-- The maps, the phases and the history agree. -/
structure Inv (s : Service C σ) (w : World C σ) (h : List (Event C)) : Prop where
  phases : ∀ c, Holds s w h c (w.phase c)
  owned : ∀ c a, .approved c a ∈ h →
    (∃ r, s.request c = .approve r ∧ a.id = r.id) ∧ w.phase c = .approved a
  distinct : ((approvals h).map Approval.id).Nodup
  records : ∀ key a, w.records key = some a → a ∈ approvals h
  active : ∀ key id, w.active key = some id →
    ∃ a, a.id = id ∧ s.key a.resourceId = .ok key ∧ Current h a
  returned : ∀ c a now, .authorized c a now ∈ h → ∃ claims, w.phase c = .returned claims
  consumed : ∀ before c a now after, h = before ++ .authorized c a now :: after →
    Consumed s before c a now

/-- Approval ids are fresh: no two calls of `approve` are given the same. -/
def Service.Fresh (s : Service C σ) : Prop :=
  ∀ c c' r r', s.request c = .approve r → s.request c' = .approve r' → r.id = r'.id → c = c'

section Steps
variable {s : Service C σ} {w w' : World C σ} {h : List (Event C)}

theorem Granted.append {c : C} {a : Approval} (hg : Granted s h c a) (t : List (Event C)) :
    Granted s (h ++ t) c a :=
  ⟨mem_approvals_append hg.1 t, hg.2⟩

theorem Watched.mono {a : Approval} {key : Units} {version : ℕ} (hw : Watched w a key version)
    (hle : ∀ k, w.version k ≤ w'.version k)
    (hsame : ∀ k, w'.version k = w.version k → w'.active k = w.active k) :
    Watched w' a key version := by
  refine ⟨hw.1.trans (hle key), ?_⟩
  intro heq
  have hback : w.version key = version := le_antisymm (heq ▸ hle key) hw.1
  rw [hsame key (heq.trans hback.symm)]
  exact hw.2 hback

/-- What a call knows survives the steps of the others. -/
theorem Holds.mono {c : C} {p : Phase} (hp : Holds s w h c p) (t : List (Event C))
    (hle : ∀ k, w.version k ≤ w'.version k)
    (hsame : ∀ k, w'.version k = w.version k → w'.active k = w.active k) :
    Holds s w' (h ++ t) c p := by
  cases p with
  | got a => exact mem_approvals_append hp t
  | unexpired a => exact mem_approvals_append hp t
  | active a => exact mem_approvals_append hp t
  | verified a claims failed => exact Granted.append hp t
  | watching a claims failed key version =>
      obtain ⟨hg, hk, hv⟩ := hp
      exact ⟨hg.append t, hk, hv.trans (hle key)⟩
  | read a claims failed key version =>
      obtain ⟨hg, hk, hv⟩ := hp
      exact ⟨hg.append t, hk, hv.mono hle hsame⟩
  | ready a claims failed key version now =>
      obtain ⟨hg, hk, hv, hnow, hread⟩ := hp
      refine ⟨hg.append t, hk, hv.mono hle hsame, hnow, ?_⟩
      intro heq
      have hback : w.version key = version := le_antisymm (heq ▸ hle key) hv.1
      obtain ⟨before, after, rfl, hc⟩ := hread hback
      exact ⟨before, after ++ t, by simp, hc⟩
  | returned claims =>
      obtain ⟨a, now, hmem⟩ := hp
      exact ⟨a, now, List.mem_append_left t hmem⟩
  | _ => exact hp

/-- A running call has neither approved nor authorized anything. -/
theorem Inv.running (hinv : Inv s w h) {c : C} (hrun : (w.phase c).ended = false) :
    (∀ a, .approved c a ∉ h) ∧ ∀ a now, .authorized c a now ∉ h := by
  constructor
  · intro a hmem
    rw [(hinv.owned c a hmem).2] at hrun
    exact absurd hrun nofun
  · intro a now hmem
    obtain ⟨claims, hp⟩ := hinv.returned c a now hmem
    rw [hp] at hrun
    exact absurd hrun nofun

/-- No approval of the history has the id an unfinished call of `approve` was given. -/
theorem Inv.fresh_id (hinv : Inv s w h) (hfresh : s.Fresh) {c : C} {r : ApproveCall}
    (hr : s.request c = .approve r) (hrun : (w.phase c).ended = false) {b : Approval}
    (hb : b ∈ approvals h) : b.id ≠ r.id := by
  intro hid
  obtain ⟨c', hmem⟩ := mem_approvals.mp hb
  obtain ⟨⟨r', hr', hid'⟩, -⟩ := hinv.owned c' b hmem
  have hc : c' = c := hfresh c' c r' r hr' hr (hid'.symm.trans hid)
  exact (hinv.running hrun).1 b (hc ▸ hmem)

/-- The approval an active key names is current. -/
theorem Inv.current (hinv : Inv s w h) {a : Approval} {key : Units} (ha : a ∈ approvals h)
    (hactive : w.active key = some a.id) : Current h a := by
  obtain ⟨b, hid, -, hcur⟩ := hinv.active key a.id hactive
  rwa [eq_of_id hinv.distinct hcur.mem ha hid] at hcur

variable [DecidableEq C]

/-- The phases after one client moved. -/
theorem Inv.phases_update (hinv : Inv s w h) {c : C} {p : Phase} {t : List (Event C)}
    (hle : ∀ k, w.version k ≤ w'.version k)
    (hsame : ∀ k, w'.version k = w.version k → w'.active k = w.active k)
    (hphase : w'.phase = Function.update w.phase c p) (hp : Holds s w' (h ++ t) c p) (c' : C) :
    Holds s w' (h ++ t) c' (w'.phase c') := by
  rw [hphase]
  by_cases hc : c' = c
  · subst hc
    rw [Function.update_self]
    exact hp
  · rw [Function.update_of_ne hc]
    exact (hinv.phases c').mono t hle hsame

/-- The invariant after a step of one running client, from what is new in the store and in
the history. -/
theorem Inv.extend (hinv : Inv s w h) {c : C} {p : Phase} {t : List (Event C)}
    (hrun : (w.phase c).ended = false) (hphase : w'.phase = Function.update w.phase c p)
    (hle : ∀ k, w.version k ≤ w'.version k)
    (hsame : ∀ k, w'.version k = w.version k → w'.active k = w.active k)
    (hp : Holds s w' (h ++ t) c p)
    (hrecords : ∀ key a, w'.records key = some a → a ∈ approvals (h ++ t))
    (hactive : ∀ key id, w'.active key = some id →
      ∃ a, a.id = id ∧ s.key a.resourceId = .ok key ∧ Current (h ++ t) a)
    (hdistinct : ((approvals (h ++ t)).map Approval.id).Nodup)
    (hgiven : ∀ c' a, .approved c' a ∈ t →
      (∃ r, s.request c' = .approve r ∧ a.id = r.id) ∧ w'.phase c' = .approved a)
    (hused : ∀ before c' a now after, t = before ++ .authorized c' a now :: after →
      (∃ claims, w'.phase c' = .returned claims) ∧ Consumed s (h ++ before) c' a now) :
    Inv s w' (h ++ t) where
  phases := hinv.phases_update hle hsame hphase hp
  owned c' a hmem := by
    rcases List.mem_append.mp hmem with hold | hnew
    · have hne : c' ≠ c := fun heq => (hinv.running hrun).1 a (heq ▸ hold)
      rw [hphase, Function.update_of_ne hne]
      exact hinv.owned c' a hold
    · exact hgiven c' a hnew
  distinct := hdistinct
  records := hrecords
  active := hactive
  returned c' a now hmem := by
    rcases List.mem_append.mp hmem with hold | hnew
    · have hne : c' ≠ c := fun heq => (hinv.running hrun).2 a now (heq ▸ hold)
      rw [hphase, Function.update_of_ne hne]
      exact hinv.returned c' a now hold
    · obtain ⟨before, after, heq⟩ := List.append_of_mem hnew
      exact (hused before c' a now after heq).1
  consumed before c' a now after heq := by
    rcases List.append_eq_append_iff.mp heq with ⟨l, rfl, hl⟩ | ⟨l, hl, hr⟩
    · exact (hused l c' a now after hl).2
    · cases l with
      | nil =>
          rw [List.append_nil] at hl
          rw [List.nil_append] at hr
          have hlast := (hused [] c' a now after hr.symm).2
          rw [List.append_nil, hl] at hlast
          exact hlast
      | cons e l =>
          rw [List.cons_append, List.cons.injEq] at hr
          obtain ⟨rfl, -⟩ := hr
          exact hinv.consumed before c' a now l hl

/-- A move of one call. -/
theorem Inv.moved (hinv : Inv s w h) {c : C} {p : Phase} (hw : Narrows w w')
    (hrun : (w.phase c).ended = false) (hnext : Next s w c (w.phase c) p)
    (hphase : w'.phase = Function.update w.phase c p) : Inv s w' h := by
  have hold := hinv.phases c
  have hp : Holds s w' (h ++ []) c p := by
    rw [List.append_nil]
    generalize w.phase c = q at hold hnext
    cases hnext with
    | raised e => trivial
    | refused => trivial
    | checked hr ha =>
        refine ⟨_, hr, ?_⟩
        rw [ApproveCall.approval] at ha
        obtain ⟨-, ha⟩ := raiseIf_bind_eq_ok.mp ha
        obtain ⟨-, ha⟩ := raiseIf_bind_eq_ok.mp ha
        obtain ⟨digest, -, ha⟩ := bind_eq_ok.mp ha
        rw [← Except.ok.inj ha]
    | timed hr a ttl => exact hold
    | got ha => exact hinv.records _ _ ha
    | unexpired a => exact hold
    | active a => exact hold
    | verified hr hm claims => exact ⟨hold, _, hr, hm⟩
    | watching hk claims failed => exact ⟨hold, hk, hw.version _⟩
    | read ha claims failed version =>
        have hwatch : Watched w _ _ version := ⟨hold.2.2, fun _ => ha⟩
        exact ⟨hold.1, hold.2.1, hwatch.mono hw.version hw.unwritten⟩
    | again a claims failed key version now => exact hold.1
  have hext := hinv.extend hrun hphase hw.version hw.unwritten hp
    (by simpa using fun key a ha => hinv.records key a (hw.records key a ha))
    (by simpa using fun key id hid => hinv.active key id (hw.active key id hid))
    (by simpa using hinv.distinct) (by simp) (by simp)
  rwa [List.append_nil] at hext

/-- An approval enters, and supersedes what was active for its resource. -/
theorem Inv.approved (hinv : Inv s w h) (hfresh : s.Fresh) {c : C} {r : ApproveCall} {a : Approval}
    {key : Units} (hr : s.request c = .approve r)
    (hold : w.phase c = .checked a ∨ ∃ ttl, w.phase c = .timed a ttl)
    (hkey : s.key a.resourceId = .ok key) (hw : Adds w w' a key)
    (hphase : w'.phase = Function.update w.phase c (.approved a)) :
    Inv s w' (h ++ [.approved c a]) := by
  have hrun : (w.phase c).ended = false := by
    rcases hold with hp | ⟨ttl, hp⟩ <;> rw [hp] <;> rfl
  have hid : a.id = r.id := by
    have hknown := hinv.phases c
    have hmine : ∃ r, s.request c = .approve r ∧ a.id = r.id := by
      rcases hold with hp | ⟨ttl, hp⟩ <;> rw [hp] at hknown <;> exact hknown
    obtain ⟨r', hr', hid⟩ := hmine
    rw [hr, Request.approve.injEq] at hr'
    rw [hid, hr']
  have hmem : a ∈ approvals (h ++ [.approved c a]) := mem_approvals.mpr ⟨c, by simp⟩
  refine hinv.extend hrun hphase hw.version hw.unwritten trivial ?_ ?_ ?_ ?_ ?_
  · intro k b hb
    rcases hw.records k b hb with hbefore | rfl
    · exact mem_approvals_append (hinv.records k b hbefore) _
    · exact hmem
  · intro k id hactive
    by_cases hk : k = key
    · subst hk
      rw [hw.here, Option.some.injEq] at hactive
      exact ⟨a, hactive, hkey, current_approved h c a⟩
    · obtain ⟨b, hb, hbkey, hcur⟩ := hinv.active k id (hw.active k id hk hactive)
      refine ⟨b, hb, hbkey, hcur.snoc ?_⟩
      -- another resource, for its key is another
      intro hends
      have hends : a.resourceId = b.resourceId := hends
      rw [← hends, hkey] at hbkey
      exact hk (Except.ok.inj hbkey).symm
  · rw [approvals_append, List.map_append, List.nodup_append]
    refine ⟨hinv.distinct, by simp [approvals], ?_⟩
    intro x hx y hy
    obtain ⟨b, hb, rfl⟩ := List.mem_map.mp hx
    have hya : y = a.id := by simpa [approvals] using hy
    rw [hya, hid]
    exact hinv.fresh_id hfresh hr hrun hb
  · intro c' b hb
    rw [List.mem_singleton, Event.approved.injEq] at hb
    obtain ⟨rfl, rfl⟩ := hb
    refine ⟨⟨r, hr, hid⟩, ?_⟩
    rw [hphase, Function.update_self]
  · intro before c' b now after heq
    have hmem : Event.authorized c' b now ∈ [Event.approved c a] := heq ▸ by simp
    simp at hmem

/-- A resource's approval is withdrawn. -/
theorem Inv.invalidated (hinv : Inv s w h) {c : C} {resourceId key : Units}
    (hrun : (w.phase c).ended = false) (hkey : s.key resourceId = .ok key) (hw : Narrows w w')
    (hgone : w'.active key = none) (hphase : w'.phase = Function.update w.phase c .invalidated) :
    Inv s w' (h ++ [.invalidated resourceId]) := by
  have hsame : approvals (h ++ [.invalidated resourceId]) = approvals h := by
    rw [approvals_append]
    exact List.append_nil _
  refine hinv.extend hrun hphase hw.version hw.unwritten trivial ?_ ?_ (hsame ▸ hinv.distinct)
    (by simp) ?_
  · intro k a ha
    rw [hsame]
    exact hinv.records k a (hw.records k a ha)
  · intro k id hactive
    obtain ⟨b, hb, hbkey, hcur⟩ := hinv.active k id (hw.active k id hactive)
    refine ⟨b, hb, hbkey, hcur.snoc ?_⟩
    intro hends
    have hends : resourceId = b.resourceId := hends
    rw [← hends, hkey] at hbkey
    rw [← Except.ok.inj hbkey, hgone] at hactive
    exact absurd hactive nofun
  · intro before c' b now after heq
    have hmem : Event.authorized c' b now ∈ [Event.invalidated resourceId] := heq ▸ by simp
    simp at hmem

/-- The clock is read in an attempt to consume. -/
theorem Inv.read (hinv : Inv s w h) {c : C} {a : Approval} {claims : CapabilityClaims} {failed : ℕ}
    {key : Units} {version : ℕ} {now : ℚ} (hold : w.phase c = .read a claims failed key version)
    (hnow : now < a.expiresAt) :
    Inv s (w.to c (.ready a claims failed key version now)) (h ++ [.clockRead c now]) := by
  have hsame : approvals (h ++ [.clockRead c now]) = approvals h := by
    rw [approvals_append]
    exact List.append_nil _
  have hknown := hinv.phases c
  rw [hold] at hknown
  obtain ⟨hg, hk, hwatch⟩ := hknown
  refine hinv.extend (by rw [hold]; rfl) rfl (fun _ => le_rfl) (fun _ _ => rfl) ?_
    (hsame ▸ hinv.records) ?_ (hsame ▸ hinv.distinct) (by simp) ?_
  · refine ⟨hg.append _, hk, hwatch, hnow, ?_⟩
    intro hversion
    exact ⟨h, [], rfl, hinv.current hg.1 (hwatch.2 hversion)⟩
  · intro k id hactive
    obtain ⟨b, hb, hbkey, hcur⟩ := hinv.active k id hactive
    exact ⟨b, hb, hbkey, hcur.snoc fun hends => hends⟩
  · intro before c' b time after heq
    have hmem : Event.authorized c' b time ∈ [Event.clockRead c now] := heq ▸ by simp
    simp at hmem

/-- A call uses its approval up. -/
theorem Inv.authorized (hinv : Inv s w h) {c : C} {a : Approval} {claims : CapabilityClaims}
    {key : Units} {now : ℚ} (hrun : (w.phase c).ended = false) (hg : Granted s h c a)
    (hactive : w.active key = some a.id) (hkey : s.key a.resourceId = .ok key)
    (hnow : now < a.expiresAt) (hread : ∃ before, ReadsAfter before h c now ∧ Current before a)
    (hw : Narrows w w') (hgone : w'.active key = none)
    (hphase : w'.phase = Function.update w.phase c (.returned claims)) :
    Inv s w' (h ++ [.authorized c a now]) := by
  have hsame : approvals (h ++ [.authorized c a now]) = approvals h := by
    rw [approvals_append]
    exact List.append_nil _
  refine hinv.extend hrun hphase hw.version hw.unwritten ⟨a, now, by simp⟩ ?_ ?_
    (hsame ▸ hinv.distinct) (by simp) ?_
  · intro k b hb
    rw [hsame]
    exact hinv.records k b (hw.records k b hb)
  · intro k id hstill
    obtain ⟨b, hb, hbkey, hcur⟩ := hinv.active k id (hw.active k id hstill)
    refine ⟨b, hb, hbkey, hcur.snoc ?_⟩
    -- the approval used up was active under another key
    intro hends
    have hba : b = a := eq_of_id hinv.distinct hcur.mem hg.1 (show a.id = b.id from hends).symm
    rw [hba, hkey] at hbkey
    rw [← Except.ok.inj hbkey, hgone] at hstill
    exact absurd hstill nofun
  · intro before c' b time after heq
    cases before with
    | nil =>
        rw [List.nil_append, List.cons.injEq, Event.authorized.injEq] at heq
        obtain ⟨⟨rfl, rfl, rfl⟩, -⟩ := heq
        refine ⟨⟨claims, by rw [hphase, Function.update_self]⟩, ?_⟩
        rw [List.append_nil]
        exact ⟨hg, hinv.current hg.1 hactive, hnow, hread⟩
    | cons e before =>
        have hlen := congrArg List.length heq
        simp at hlen

/-- **The invariant is kept.** -/
theorem Inv.step (hinv : Inv s w h) (hfresh : s.Fresh) (action : Action C) :
    Inv s (step s w action).2 (h ++ (step s w action).1.toList) := by
  have heffect := step_effect s w action
  generalize (Approvals.step s w action).1 = e at heffect ⊢
  generalize (Approvals.step s w action).2 = w' at heffect ⊢
  cases heffect with
  | lapsed hw hphase =>
      rw [Option.toList_none, List.append_nil]
      refine { hinv with
        phases := fun c => ?_
        owned := fun c a hmem => hphase ▸ hinv.owned c a hmem
        records := fun key a ha => hinv.records key a (hw.records key a ha)
        active := fun key id hid => hinv.active key id (hw.active key id hid)
        returned := fun c a now hmem => hphase ▸ hinv.returned c a now hmem }
      rw [hphase, ← List.append_nil h]
      exact (hinv.phases c).mono [] hw.version hw.unwritten
  | moved hw hrun hnext hphase =>
      rw [Option.toList_none, List.append_nil]
      exact hinv.moved hw hrun hnext hphase
  | approved hr hold hkey hw hphase => exact hinv.approved hfresh hr hold hkey hw hphase
  | invalidated hrun hkey hw hgone hphase => exact hinv.invalidated hrun hkey hw hgone hphase
  | read hold hnow => exact hinv.read hold hnow
  | @locked _ c _ _ _ _ _ hold hkey hnow hactive hw hgone hphase =>
      have hg := hinv.phases c
      rw [hold] at hg
      exact hinv.authorized (by rw [hold]; rfl) hg hactive hkey hnow
        ⟨h, Or.inl rfl, hinv.current hg.1 hactive⟩ hw hgone hphase
  | @committed _ c _ _ _ _ _ hold hw hgone hphase =>
      have hknown := hinv.phases c
      rw [hold] at hknown
      obtain ⟨hg, hkey, hwatch, hnow, hread⟩ := hknown
      obtain ⟨before, after, hsplit, hcur⟩ := hread rfl
      exact hinv.authorized (by rw [hold]; rfl) hg (hwatch.2 rfl) hkey hnow
        ⟨before, Or.inr ⟨after, hsplit⟩, hcur⟩ hw hgone hphase

end Steps

/-! ## Every run -/

/-- An empty store, and no call has started. -/
def start (t : σ) : World C σ := { tracker := t }

theorem Inv.start (s : Service C σ) (t : σ) : Inv s (start t) ([] : List (Event C)) where
  phases _ := trivial
  owned _ _ hmem := absurd hmem List.not_mem_nil
  distinct := List.nodup_nil
  records _ _ ha := absurd ha nofun
  active _ _ hid := absurd hid nofun
  returned _ _ _ hmem := absurd hmem List.not_mem_nil
  consumed _ _ _ _ _ heq := absurd heq (by simp)

/-- A history and the world after it owe this to the callers. -/
structure SingleUse [DecidableEq C] (s : Service C σ) (h : List (Event C)) (w : World C σ) : Prop where
  /-- A call that returned used up an approval that was current and matched. -/
  returned : ∀ c claims, w.phase c = .returned claims → ∃ before a now after,
    h = before ++ .authorized c a now :: after ∧ Consumed s before c a now
  /-- For each approval at most one call naming it returns. -/
  once : ∀ c c' r r' claims claims', s.request c = .authorize r → s.request c' = .authorize r' →
    r.approvalId = r'.approvalId → w.phase c = .returned claims → w.phase c' = .returned claims' →
    c = c'
  /-- What was superseded, withdrawn or used up is never active again. -/
  dead : ∀ before after a, h = before ++ after → a ∈ approvals before → ¬ Current before a →
    ∀ key, w.active key ≠ some a.id
  /-- A call that raised has used nothing up. -/
  raised : ∀ c a now, (∀ claims, w.phase c ≠ .returned claims) → .authorized c a now ∉ h
  /-- A step of a call that does not use its approval up leaves the store as it is. -/
  frame : ∀ c r now, s.request c = .authorize r →
    (∀ a time, (step s w (.client c now)).1 ≠ some (.authorized c a time)) →
    (step s w (.client c now)).2.records = w.records ∧ (step s w (.client c now)).2.active = w.active

/-- Two uses of one approval are one. -/
theorem Inv.used_once {s : Service C σ} {w : World C σ} {h : List (Event C)} (hinv : Inv s w h)
    {before middle after : List (Event C)} {c c' : C} {a a' : Approval} {now now' : ℚ}
    (heq : h = before ++ .authorized c a now :: middle ++ .authorized c' a' now' :: after) :
    a.id ≠ a'.id := by
  intro hid
  have hlast := hinv.consumed (before ++ .authorized c a now :: middle) c' a' now' after heq
  have hfirst := hinv.consumed before c a now (middle ++ .authorized c' a' now' :: after)
    (by rw [heq, List.append_assoc, List.cons_append])
  have hall := hinv.distinct
  rw [heq, approvals_append, List.map_append] at hall
  have hd := (List.nodup_append.mp hall).1
  have haa' : a = a' := eq_of_id hd (mem_approvals_append hfirst.current.mem _)
    hlast.current.mem hid
  subst haa'
  -- it would be current still after its first use, which ended it
  have hsplit : before ++ .authorized c a now :: middle =
      before ++ [.authorized c a now] ++ middle := by simp
  have hcur := hlast.current
  rw [hsplit] at hcur hd
  have hused := hcur.before hd (mem_approvals_append hfirst.current.mem _)
  exact not_current_snoc (show Event.Ends a (.authorized c a now) from rfl) nofun hused

variable [DecidableEq C]

/-- **Approvals are single-use and current**: in every run of any calls, whatever the order
of their steps, the clock reads and the keys that lapse. -/
theorem approvals_single_use (s : Service C σ) (hfresh : s.Fresh) (t : σ) (actions : List (Action C)) :
    SingleUse s (Runs.log (step s) (start t) actions) (Runs.final (step s) (start t) actions) := by
  have hclock : (actions.map fun _ => (0 : ℚ)).Pairwise (· ≤ ·) := by simp
  have hinv := Runs.log_invariant (fun _ w h => Inv s w h)
    (fun _ _ _ action hinv _ _ => hinv.step hfresh action) (fun _ => .start s t) actions
    (Runs.along_true (step s) (start t) actions) hclock
  generalize Runs.log (step s) (start t) actions = h at hinv ⊢
  generalize Runs.final (step s) (start t) actions = w at hinv ⊢
  have hreturned : ∀ c claims, w.phase c = .returned claims → ∃ before a now after,
      h = before ++ .authorized c a now :: after ∧ Consumed s before c a now := by
    intro c claims hp
    have hknown := hinv.phases c
    rw [hp] at hknown
    obtain ⟨a, now, hmem⟩ := hknown
    obtain ⟨before, after, heq⟩ := List.append_of_mem hmem
    exact ⟨before, a, now, after, heq, hinv.consumed before c a now after heq⟩
  refine ⟨hreturned, ?_, ?_, ?_, ?_⟩
  · intro c c' r r' claims claims' hr hr' hid hp hp'
    obtain ⟨before, a, now, after, heq, hused⟩ := hreturned c claims hp
    obtain ⟨before', a', now', after', heq', hused'⟩ := hreturned c' claims' hp'
    obtain ⟨-, q, hq, hm, -⟩ := hused.granted
    obtain ⟨-, q', hq', hm', -⟩ := hused'.granted
    rw [hr, Request.authorize.injEq] at hq
    rw [hr', Request.authorize.injEq] at hq'
    subst hq hq'
    have hsame : a.id = a'.id := hm.trans (hid.trans hm'.symm)
    rcases List.append_eq_append_iff.mp (heq.symm.trans heq') with ⟨l, rfl, hl⟩ | ⟨l, rfl, hl⟩
    · cases l with
      | nil =>
          rw [List.nil_append, List.cons.injEq, Event.authorized.injEq] at hl
          exact hl.1.1
      | cons e l =>
          rw [List.cons_append, List.cons.injEq] at hl
          obtain ⟨rfl, rfl⟩ := hl
          exact absurd hsame (hinv.used_once (by simpa using heq))
    · cases l with
      | nil =>
          rw [List.nil_append, List.cons.injEq, Event.authorized.injEq] at hl
          exact hl.1.1.symm
      | cons e l =>
          rw [List.cons_append, List.cons.injEq] at hl
          obtain ⟨rfl, rfl⟩ := hl
          exact absurd hsame.symm (hinv.used_once (by simpa using heq'))
  · intro before after a hsplit ha hended key hactive
    subst hsplit
    exact hended ((hinv.current (mem_approvals_append ha _) hactive).before hinv.distinct ha)
  · intro c a now hp hmem
    obtain ⟨claims, hreturned⟩ := hinv.returned c a now hmem
    exact hp claims hreturned
  · intro c r now hr hnot
    simp only [step, hr] at hnot ⊢
    exact store_of_authorizeStep hnot

/-! ## Two tokens for one approval -/

/-- The digest is SHA-256's on the request, the id and the resource of the sample approval. -/
def sampleDigest (text : List ℕ) : Units :=
  if text = Json.codes "\x7b\x7d" then
    lit "44136fa355b3678a1146ad16f7e8649e94fb4fc21fe77e8310c060f61caaff8a"
  else if text = Json.codes "a1" then
    lit "f55ff16f66f43360266b95db6f8fec01d76031054306ae4a4b380598f6cfd114"
  else lit "3bf8b157c4238eefe5ae4a66eca81c6b887d4dcedb58dd674271859f4dc2edfd"

/-- The pins of the sample approval. -/
def samplePins : Dict := pinned "a1" "order-42" "v1" (sampleDigest (Json.codes "\x7b\x7d"))

/-- The claims of a token for the sample approval. -/
def samplePinned (jti : Units) : ClaimFields :=
  { sampleClaims.toClaimFields with
    jti := jti
    constraints := ⟨{ maxCalls := some 1, allowedParams := samplePins }, by decide +kernel,
      by decide +kernel⟩ }

/-- A call with one of two tokens. -/
def sampleAuthorize (claims : CapabilityClaims) : AuthorizeCall UsageTracker.State where
  token := sampleToken claims
  approvalId := "a1"
  resourceId := "order-42"
  revision := "v1"
  payload := .obj []
  audience := "server"
  capability := "mail:send"
  tracker := UsageTracker.tracker
  keyRegistry := some ⟨sampleRegistry.keys, sampleRegistry.keys⟩
  verifyTime := 1003
  parentTime := 1003
  reserveTime := 1003

/-- One approval in Redis, and two calls that name it. -/
def sampleService : Service (Fin 3) UsageTracker.State where
  backend := .redis fun ttl => 0 < ttl
  sha256 := sampleDigest
  ed := sampleCheck
  request
    | 0 => .approve ⟨"order-42", "v1", .obj [], 1010, "a1"⟩
    | 1 => .authorize (sampleAuthorize ⟨samplePinned "j1", by decide +kernel⟩)
    | 2 => .authorize (sampleAuthorize ⟨samplePinned "j2", by decide +kernel⟩)

/-- Both calls watch the key before either commits. -/
def sampleActions : List (Action (Fin 3)) :=
  [0, 0, 0, 1, 1, 1, 1, 2, 2, 2, 2, 1, 2, 1, 2, 1, 2, 1, 2, 2, 2].map fun c => .client c 1003

set_option maxRecDepth 100000 in
theorem approvals_single_use_sample :
    SingleUse sampleService
      (Runs.log (step sampleService) (start .empty) sampleActions)
      (Runs.final (step sampleService) (start .empty) sampleActions) ∧
    (Runs.log (step sampleService) (start .empty) sampleActions).length = 4 ∧
    ((Runs.final (step sampleService) (start .empty) sampleActions).phase 2 matches .raised _) := by
  refine ⟨approvals_single_use sampleService ?_ .empty sampleActions, by decide +kernel,
    by decide +kernel⟩
  intro c c' r r' hr hr' _
  fin_cases c <;> fin_cases c' <;> simp [sampleService] at hr hr' ⊢

end SwarmAuth.Python.Approvals
