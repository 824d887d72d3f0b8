import Moore.Proofs.OneLine
import Moore.Report.Check

/-
# What a check report tells

The printed text and the structured report are made apart, and each sorts the findings on its
own.  A reader of the text has only its lines: one that starts with a label is about a finding
or about the conditions as a whole, and the last one is the verdict.  What such a reader learns
(`CheckReport.body`, `Severity.ofLine?`) is what the structured report says.

Rules are compared by what they check for (`CheckRules.Within`): a machine that passes under
more rules passes under fewer.
-/

namespace Moore

/-! ### Labels -/

namespace Severity

/-- How a line starts that is labelled so. -/
def mark (colors : Bool) (s : Severity) : List Char :=
  ("  " ++ s.painted colors ++ " ").toList

/-- The label at the start of a line. -/
def ofLine? (colors : Bool) (line : List Char) : Option Severity :=
  [error, warning].find? fun s => (s.mark colors).isPrefixOf line

theorem ofLine?_mark (colors : Bool) (s : Severity) (rest : List Char) :
    ofLine? colors (s.mark colors ++ rest) = some s := by
  cases colors <;> cases s <;> rfl

theorem oneLine_painted (colors : Bool) (s : Severity) : OneLine (s.painted colors) := by
  refine OneLine.paint ?_
  cases s <;> decide

end Severity

theorem Finding.oneLine_code (f : Finding) : OneLine f.code := by
  cases f <;> simp only [code] <;> decide

/-! ### The lines of a report -/

theorem zip_map_append {α β : Type} (f : α → β) (l : List α) (rest : List β) :
    l.zip (l.map f ++ rest) = l.map fun a => (a, f a) := by
  induction l with
  | nil => rfl
  | cons a l ih => rw [List.map_cons, List.cons_append, List.zip_cons_cons, ih, List.map_cons]

/-- The last of the lines ends the text. -/
theorem exists_intercalate_concat (sep : String) (l : List String) (last : String) :
    ∃ init, sep.intercalate (l ++ [last]) = init ++ last := by
  induction l with
  | nil => exact ⟨"", by simp⟩
  | cons s l ih =>
    obtain ⟨init, hinit⟩ := ih
    refine ⟨s ++ sep ++ init, ?_⟩
    rw [String.append_assoc, ← hinit]
    cases l with
    | nil => simp
    | cons t l => simp

namespace CheckReport

variable (r : CheckReport) (colors : Bool)

/-- The lines of the printed text after its heading. -/
def body : List (List Char) :=
  ((r.outcome colors .text).text.toList.drop ((r.heading colors).length + 1)).splitOn '\n'

/-- The labels in the printed text. -/
def labels : List Severity :=
  (r.body colors).filterMap (Severity.ofLine? colors)

/-- The lines that stand after the heading. -/
def linesBelow : List String :=
  r.diagnosis.findings.map (r.findingLine colors) ++ (r.wholeSetLines colors ++ [r.verdict colors])

theorem text_eq : (r.outcome colors .text).text.toList = (r.heading colors ++ "\n").toList ++
    ['\n'].intercalate ((r.linesBelow colors).map String.toList) := by
  have hlines : r.lines colors = r.heading colors :: r.linesBelow colors := by
    simp [lines, linesBelow]
  show ("\n".intercalate (r.lines colors)).toList = _
  rw [hlines, String.toList_intercalate, String.toList_append]
  cases hbelow : r.linesBelow colors with
  | nil => simp [linesBelow] at hbelow
  | cons line below =>
    rw [List.map_cons, List.map_cons, List.intercalate_cons_cons]
    rfl

variable {r colors}

theorem oneLine_findingLine {f : Finding} (h : OneLine f.message) :
    OneLine (r.findingLine colors f) := by
  simp only [findingLine, oneLine_append]
  exact ⟨⟨⟨⟨⟨by decide, Severity.oneLine_painted _ _⟩, by decide⟩, .paint f.oneLine_code⟩,
    by decide⟩, h⟩

theorem oneLine_wholeSetLines : ∀ line ∈ r.wholeSetLines colors, OneLine line := by
  have hflag : ∀ b : Bool, OneLine (toString b) := by decide
  refine List.forall_mem_cons.2 ⟨?_, ?_⟩
  · simp only [oneLine_append]
    exact ⟨⟨⟨by decide, hflag _⟩, by decide⟩, hflag _⟩
  · split
    · simp only [List.forall_mem_singleton, oneLine_append]
      exact ⟨⟨by decide, Severity.oneLine_painted colors .error⟩, by decide⟩
    · exact List.forall_mem_nil _

theorem oneLine_verdict : OneLine (r.verdict colors) := by
  unfold verdict
  cases r.passed with
  | true => exact .paint (by decide)
  | false => exact .paint (by decide)

/-- No message breaks its line, so the lines of the text are those that it was made of. -/
theorem body_eq (h : ∀ f ∈ r.diagnosis.findings, OneLine f.message) :
    r.body colors = (r.linesBelow colors).map String.toList := by
  have hlength : (r.heading colors).length + 1 = (r.heading colors ++ "\n").toList.length := by
    rw [String.length_toList, String.length_append]
    rfl
  have hlines : ∀ line ∈ (r.linesBelow colors).map String.toList, '\n' ∉ line := by
    refine List.forall_mem_map.2 (List.forall_mem_append.2 ⟨?_, List.forall_mem_append.2
      ⟨oneLine_wholeSetLines, List.forall_mem_singleton.2 oneLine_verdict⟩⟩)
    exact List.forall_mem_map.2 fun f hf => oneLine_findingLine (h f hf)
  have hne : (r.linesBelow colors).map String.toList ≠ [] := by
    simp [linesBelow]
  rw [body, text_eq, hlength, List.drop_left, List.splitOn_intercalate '\n' hlines hne]

theorem ofLine?_findingLine (f : Finding) :
    Severity.ofLine? colors (r.findingLine colors f).toList = some (r.severity f) := by
  have hmark : (r.findingLine colors f).toList = (r.severity f).mark colors ++
      '[' :: (Text.paint colors .dimmed f.code ++ "] " ++ f.message).toList := by
    simp [findingLine, Severity.mark]
  rw [hmark, Severity.ofLine?_mark]

/-- Of the lines about the conditions as a whole only one that is about an error is labelled. -/
theorem filterMap_wholeSetLines : (r.wholeSetLines colors).filterMap
    (fun line => Severity.ofLine? colors line.toList) =
      if r.wholeSetFails then [.error] else [] := by
  have hflags : ∀ exclusive exhaustive : Bool, Severity.ofLine? colors
      (s!"  whole set: exclusive={exclusive} exhaustive={exhaustive}").toList = none := by
    intro exclusive exhaustive
    simp only [String.toList_append]
    cases colors <;> rfl
  have herror : Severity.ofLine? colors ("  " ++ Severity.error.painted colors ++
      " transition conditions are not exclusive and exhaustive as a whole").toList =
        some .error := by
    cases colors <;> rfl
  rw [wholeSetLines, List.filterMap_cons, hflags]
  cases r.wholeSetFails with
  | false => rfl
  | true =>
    show List.filterMap _ [_] = _
    rw [List.filterMap_cons, herror]
    rfl

theorem ofLine?_verdict : Severity.ofLine? colors (r.verdict colors).toList = none := by
  unfold verdict
  cases r.passed <;> cases colors <;> decide

theorem labels_eq (h : ∀ f ∈ r.diagnosis.findings, OneLine f.message) : r.labels colors =
    r.diagnosis.findings.map r.severity ++ if r.wholeSetFails then [.error] else [] := by
  rw [labels, body_eq h, List.filterMap_map]
  show (r.linesBelow colors).filterMap (fun line => Severity.ofLine? colors line.toList) = _
  rw [linesBelow, List.filterMap_append, List.filterMap_append, filterMap_wholeSetLines,
    List.filterMap_map, ← List.filterMap_eq_map]
  have hverdict : [r.verdict colors].filterMap
      (fun line => Severity.ofLine? colors line.toList) = [] := by
    rw [List.filterMap_cons, ofLine?_verdict]
    rfl
  rw [hverdict, List.append_nil]
  congr 1
  exact List.filterMap_congr fun f _ => ofLine?_findingLine f

/-! ### The verdict -/

theorem severity_eq_error_iff {f : Finding} :
    r.severity f = .error ↔ r.rules.forbids f = true := by
  unfold severity
  split
  · next h => exact iff_of_true rfl h
  · next h => exact iff_of_false (by simp) h

theorem passed_eq_true_iff : r.passed = true ↔
    (∀ f ∈ r.diagnosis.findings, r.rules.forbids f = false) ∧ r.wholeSetFails = false := by
  simp [passed, failures]

/-- A report fails exactly if something in it is labelled as an error. -/
theorem passed_eq_false_iff (h : ∀ f ∈ r.diagnosis.findings, OneLine f.message) :
    r.passed = false ↔ .error ∈ r.labels colors := by
  rw [labels_eq h, List.mem_append, ← Bool.not_eq_true, passed_eq_true_iff, not_and_or]
  refine or_congr ?_ ?_
  · simp only [List.mem_map, severity_eq_error_iff]
    simp
  · cases r.wholeSetFails with
    | false => simp
    | true => simp

/-- Without colors the text ends in `OK` exactly if the report passes. -/
theorem ok_isSuffix_iff : "OK".toList <:+ (r.outcome false .text).text.toList ↔
    r.passed = true := by
  obtain ⟨init, hinit⟩ := exists_intercalate_concat "\n"
    (r.heading false :: r.diagnosis.findings.map (r.findingLine false) ++ r.wholeSetLines false)
    (r.verdict false)
  show "OK".toList <:+ ("\n".intercalate (r.lines false)).toList ↔ _
  rw [lines, hinit, String.toList_append]
  unfold verdict
  cases r.passed with
  | true => exact iff_of_true (List.suffix_append _ _) rfl
  | false =>
    refine iff_of_false ?_ Bool.false_ne_true
    rintro ⟨front, hfront⟩
    have hlast := congrArg List.getLast? hfront
    simp [Text.paint] at hlast

end CheckReport

/-! ### Rules -/

/-- All that some rules check for is checked for by others. -/
structure CheckRules.Within (rules stricter : CheckRules) : Prop where
  perState : rules.perState = true → stricter.perState = true
  wholeSet : rules.wholeSet = true → stricter.wholeSet = true
  requireDefault : rules.requireDefault = true → stricter.requireDefault = true
  reachability : rules.reachability = true → stricter.reachability = true

namespace CheckRules.Within

variable {rules stricter : CheckRules}

theorem forbids (h : rules.Within stricter) {f : Finding} (hf : rules.forbids f = true) :
    stricter.forbids f = true := by
  cases f with
  | overlappingConditions | nonExhaustive => exact h.perState hf
  | unreachable | unexitable => exact h.reachability hf
  | missingDefault => exact h.requireDefault hf
  | duplicateName | missingOutput | parallelTransitions => rfl

/-- What passes under more rules passes under fewer. -/
theorem passed (h : rules.Within stricter) {d : Definition}
    (hd : (d.check stricter).passed = true) : (d.check rules).passed = true := by
  rw [CheckReport.passed_eq_true_iff] at hd ⊢
  obtain ⟨hfindings, hwhole⟩ := hd
  refine ⟨fun f hf => ?_, ?_⟩
  · rw [← Bool.not_eq_true]
    intro hforbids
    exact Bool.false_ne_true ((hfindings f hf).symm.trans (h.forbids hforbids))
  · rw [← Bool.not_eq_true]
    intro hfails
    obtain ⟨hrule, hbroken⟩ := Bool.and_eq_true_iff.1 hfails
    have hstricter : (d.check stricter).wholeSetFails = true :=
      Bool.and_eq_true_iff.2 ⟨h.wholeSet hrule, hbroken⟩
    exact Bool.false_ne_true (hwhole.symm.trans hstricter)

end CheckRules.Within

/-! ### Agreement -/

theorem Definition.oneLine_findings {d : Definition} (spelled : d.world.Spelled)
    (rules : CheckRules) : ∀ f ∈ (d.check rules).diagnosis.findings, OneLine f.message :=
  fun _ hf => Finding.oneLine_message (spelled.graph.quoted hf)

/-- A check has one verdict, however it is reported, and more rules never help to pass it.
Where names are identifiers each finding has its line in the text, the structured report lists
those as failures whose lines are labelled as errors, and it fails if there is such a label. -/
theorem Definition.reports_agree (d : Definition) (rules : CheckRules) (colors : Bool) :
    let r := d.check rules
    let text := (r.outcome colors .text).text
    let shown := r.diagnosis.findings.zip (r.body colors)
    (∀ painted format, (r.outcome painted format).success = r.passed) ∧
      r.toJson.get? "passed" = some (.bool r.passed) ∧
      (∀ painted, (r.outcome painted .json).text = Format.json.render r.toJson ∧
        (r.outcome painted .yaml).text = Format.yaml.render r.toJson) ∧
      ("OK".toList <:+ (r.outcome false .text).text.toList ↔ r.passed = true) ∧
      (∀ stricter : CheckRules, rules.Within stricter →
        (d.check stricter).passed = true → r.passed = true) ∧
      (d.world.Spelled →
        (r.heading colors ++ "\n").toList <+: text.toList ∧
        shown.map (·.1) = r.diagnosis.findings ∧
        (∀ p ∈ shown, ∃ severity, Severity.ofLine? colors p.2 = some severity ∧
          p.2 = ("  " ++ severity.painted colors ++ " [" ++
            Text.paint colors .dimmed p.1.code ++ "] " ++ p.1.message).toList) ∧
        r.toJson.get? "failures" = some (.ofList Finding.toJson
          ((shown.filter fun p => Severity.ofLine? colors p.2 = some .error).map (·.1))) ∧
        (r.passed = false ↔ .error ∈ r.labels colors)) := by
  intro r text shown
  refine ⟨fun _ _ => rfl, rfl, fun _ => ⟨rfl, rfl⟩, CheckReport.ok_isSuffix_iff,
    fun _ hwithin => hwithin.passed, fun spelled => ?_⟩
  have hlines : ∀ f ∈ r.diagnosis.findings, OneLine f.message := oneLine_findings spelled rules
  have hshown : shown =
      r.diagnosis.findings.map fun f => (f, (r.findingLine colors f).toList) := by
    show r.diagnosis.findings.zip (r.body colors) = _
    rw [CheckReport.body_eq hlines, CheckReport.linesBelow, List.map_append, List.map_map]
    exact zip_map_append (fun f => (r.findingLine colors f).toList) _ _
  have hfailures : (shown.filter fun p => Severity.ofLine? colors p.2 = some .error).map (·.1) =
      r.failures := by
    rw [hshown, List.filter_map, List.map_map]
    refine (List.map_id'' (fun _ => rfl) _).trans (List.filter_congr fun f _ => ?_)
    simp only [Function.comp_apply, CheckReport.ofLine?_findingLine, Option.some.injEq,
      CheckReport.severity_eq_error_iff, Bool.decide_eq_true]
  rw [hfailures]
  refine ⟨?_, ?_, ?_, rfl, CheckReport.passed_eq_false_iff hlines⟩
  · show _ <+: (r.outcome colors .text).text.toList
    rw [CheckReport.text_eq]
    exact List.prefix_append _ _
  · rw [hshown, List.map_map]
    exact List.map_id'' (fun _ => rfl) _
  · rw [hshown]
    refine List.forall_mem_map.2 fun f _ => ⟨r.severity f, ?_, rfl⟩
    exact CheckReport.ofLine?_findingLine f

/-- Nothing is found at a lamp that stays on, but its conditions taken together overlap.  The
name of the machine looks like a label and is not read as one. -/
theorem Definition.lamp_reported :
    let doc : Document := {
      name := some "lamp\n  error "
      states := [{ name := "off", isDefault := true }, { name := "on" }]
      transitions := [{ sources := ["off"], target := "off", condition := "~go" },
        { sources := ["off"], target := "on", condition := "go" },
        { sources := ["on"], target := "on", condition := "TRUE" }] }
    ∃ d, ofDocument doc = .ok d ∧ d.world.Spelled ∧
      .error ∈ (d.check { wholeSet := true }).labels true ∧ .error ∉ (d.check {}).labels false ∧
      "OK".toList <:+ ((d.check { perState := false }).outcome false .text).text.toList := by
  intro doc
  obtain ⟨d, hd⟩ : ∃ d, ofDocument doc = .ok d := ⟨_, rfl⟩
  have spelled : d.world.Spelled := Definition.spelled hd (by decide)
  have hfails : (d.check { wholeSet := true }).passed = false := by
    cases hd
    decide
  have hpasses : (d.check {}).passed = true := by
    cases hd
    decide
  have hwithin : CheckRules.Within { perState := false } {} := by
    constructor <;> decide
  obtain ⟨-, -, -, -, -, hstrict⟩ := d.reports_agree { wholeSet := true } true
  obtain ⟨-, -, -, -, -, hplain⟩ := d.reports_agree {} false
  obtain ⟨-, -, -, hok, hfewer, -⟩ := d.reports_agree { perState := false } false
  obtain ⟨-, -, -, -, hlabelled⟩ := hstrict spelled
  obtain ⟨-, -, -, -, hunlabelled⟩ := hplain spelled
  refine ⟨d, hd, spelled, hlabelled.1 hfails, fun herror => ?_,
    hok.2 (hfewer {} hwithin hpasses)⟩
  exact Bool.false_ne_true ((hunlabelled.2 herror).symm.trans hpasses)

end Moore
