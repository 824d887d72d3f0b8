import Moore.Proofs.Document
import Moore.Proofs.Json.Decode
import Moore.Template.Json

/-
# Documents and template models read back

What is written as JSON is read back as it was: a template model always, and a document if
the names of its outputs are good.  Documents that were read have good names, so a document
in any accepted form and its canonical form make the same definition.

The default flag of a state, the name of a document and the default state of a model are
written only if there is something to say.  The entries that follow are read in the same way
whether or not these were there, which is what `hrest` says in each of the three proofs.
-/

namespace Moore

open Json Json.Decoder

/-! ### Documents -/

theorem recovers_state {e : StateEntry} (h : e.outputs.Named) :
    Recovers (record (StateEntry.record string bool outputs)) StateEntry.toJson e := by
  obtain ⟨name, isDefault, o⟩ := e
  have hrest : ∀ d, readEntries (StateEntry.record string bool outputs) ⟨none, d, none⟩
      (Source.keyed [("name", .str name), ("outputs", o.toJson)]) =
        .ok ⟨some name, d, some o⟩ := by
    intro d
    refine readEntries_cons rfl rfl (read_of (recovers_string name)) ?_
    exact readEntries_cons rfl rfl (read_of (recovers_outputs h)) rfl
  cases isDefault with
  | false =>
    have hencode : StateEntry.toJson ⟨name, false, o⟩ =
        .obj [("name", .str name), ("outputs", o.toJson)] := rfl
    have hkeys : ["name", "outputs"].Pairwise (· < ·) := by decide
    exact recovers_record _ hencode (.refl _) hkeys (hrest none) rfl
  | true =>
    have hencode : StateEntry.toJson ⟨name, true, o⟩ =
        .obj [("name", .str name), ("default", .bool true), ("outputs", o.toJson)] := rfl
    have hkeys : ["default", "name", "outputs"].Pairwise (· < ·) := by decide
    exact recovers_record _ hencode (.swap _ _ _) hkeys
      (readEntries_cons rfl rfl (read_of (recovers_bool true)) (hrest (some true))) rfl

theorem recovers_sources (names : List String) : Recovers sources Json.strings names := by
  have hlist := recovers_strings names
  unfold Recovers Json.strings Json.ofList Source.ofJson at hlist ⊢
  exact hlist

theorem recovers_transition (e : TransitionEntry) :
    Recovers (record (TransitionEntry.record string sources)) TransitionEntry.toJson e := by
  obtain ⟨names, target, condition⟩ := e
  have hencode : TransitionEntry.toJson ⟨names, target, condition⟩ =
      .obj [("from", .strings names), ("to", .str target), ("condition", .str condition)] := rfl
  have hkeys : ["condition", "from", "to"].Pairwise (· < ·) := by decide
  refine recovers_record ⟨some names, some target, some condition⟩ hencode
    (@List.perm_middle _ _ [_, _] []) hkeys ?_ rfl
  refine readEntries_cons rfl rfl (read_of (recovers_string condition)) ?_
  refine readEntries_cons rfl rfl (read_of (recovers_sources names)) ?_
  exact readEntries_cons rfl rfl (read_of (recovers_string target)) rfl

theorem recovers_name (name : String) :
    nullable string (Source.ofJson (.str name)) = .ok (some name) := by
  unfold Source.ofJson
  rfl

theorem recovers_document {doc : Document} (h : ∀ s ∈ doc.states, s.outputs.Named) :
    Recovers document Document.toJson doc := by
  obtain ⟨name, states, transitions⟩ := doc
  have hstates := Recovers.list fun s hs => recovers_state (h s hs)
  have htransitions := Recovers.list (l := transitions) fun t _ => recovers_transition t
  have hrest : ∀ d, readEntries (Document.record (nullable string)
      (list (record (StateEntry.record string bool outputs)))
      (list (record (TransitionEntry.record string sources)))) ⟨d, none, none⟩
      (Source.keyed [("states", .ofList StateEntry.toJson states),
        ("transitions", .ofList TransitionEntry.toJson transitions)]) =
        .ok ⟨d, some states, some transitions⟩ := by
    intro d
    refine readEntries_cons rfl rfl (read_of hstates) ?_
    exact readEntries_cons rfl rfl (read_of htransitions) rfl
  cases name with
  | none =>
    have hencode : Document.toJson ⟨none, states, transitions⟩ =
        .obj [("states", .ofList StateEntry.toJson states),
          ("transitions", .ofList TransitionEntry.toJson transitions)] := rfl
    have hkeys : ["states", "transitions"].Pairwise (· < ·) := by decide
    exact recovers_record _ hencode (.refl _) hkeys (hrest none) rfl
  | some name =>
    have hencode : Document.toJson ⟨some name, states, transitions⟩ =
        .obj [("name", .str name), ("states", .ofList StateEntry.toJson states),
          ("transitions", .ofList TransitionEntry.toJson transitions)] := rfl
    have hkeys : ["name", "states", "transitions"].Pairwise (· < ·) := by decide
    exact recovers_record _ hencode (.refl _) hkeys
      (readEntries_cons rfl rfl (read_of (recovers_name name)) (hrest (some (some name)))) rfl

/-! ### Template models -/

namespace TemplateModel

theorem recovers_state (s : TemplateState) : Recovers (record stateRecord) stateJson s := by
  obtain ⟨name, isDefault, o⟩ := s
  have ho : Recovers (named level) Outputs.toJson o := Recovers.named recovers_level o
  have hencode : stateJson ⟨name, isDefault, o⟩ =
      .obj [("name", .str name), ("default", .bool isDefault), ("outputs", o.toJson)] := rfl
  have hkeys : ["default", "name", "outputs"].Pairwise (· < ·) := by decide
  refine recovers_record ⟨some name, some isDefault, some o⟩ hencode (.swap _ _ _) hkeys ?_ rfl
  refine readEntries_cons rfl rfl (read_of (recovers_bool isDefault)) ?_
  refine readEntries_cons rfl rfl (read_of (recovers_string name)) ?_
  exact readEntries_cons rfl rfl (read_of ho) rfl

theorem recovers_transition (t : TemplateTransition) :
    Recovers (record transitionRecord) transitionJson t := by
  obtain ⟨source, destination, condition, relational⟩ := t
  have hencode : transitionJson ⟨source, destination, condition, relational⟩ =
      .obj [("source", .str source), ("destination", .str destination),
        ("condition", .str condition), ("vhdl", .str relational)] := rfl
  have hkeys : ["condition", "destination", "source", "vhdl"].Pairwise (· < ·) := by decide
  refine recovers_record ⟨some source, some destination, some condition, some relational⟩ hencode
    ((@List.perm_middle _ _ [_, _] _).trans (.cons _ (.swap _ _ _))) hkeys ?_ rfl
  refine readEntries_cons rfl rfl (read_of (recovers_string condition)) ?_
  refine readEntries_cons rfl rfl (read_of (recovers_string destination)) ?_
  refine readEntries_cons rfl rfl (read_of (recovers_string source)) ?_
  exact readEntries_cons rfl rfl (read_of (recovers_string relational)) rfl

theorem recovers_model (m : TemplateModel) : Recovers (record modelRecord) toJson m := by
  obtain ⟨name, inputs, outputs, defaultState, states, transitions⟩ := m
  have hrest : ∀ d, readEntries modelRecord ⟨none, none, none, d, none, none⟩
      (Source.keyed [("inputs", .strings inputs), ("name", .str name),
        ("outputs", .strings outputs), ("states", .ofList stateJson states),
        ("transitions", .ofList transitionJson transitions)]) =
        .ok ⟨some name, some inputs, some outputs, d, some states, some transitions⟩ := by
    intro d
    refine readEntries_cons rfl rfl (read_of (recovers_strings inputs)) ?_
    refine readEntries_cons rfl rfl (read_of (recovers_string name)) ?_
    refine readEntries_cons rfl rfl (read_of (recovers_strings outputs)) ?_
    refine readEntries_cons rfl rfl (read_of (Recovers.list fun s _ => recovers_state s)) ?_
    exact readEntries_cons rfl rfl (read_of (Recovers.list fun t _ => recovers_transition t)) rfl
  cases defaultState with
  | none =>
    have hencode : toJson ⟨name, inputs, outputs, none, states, transitions⟩ =
        .obj [("name", .str name), ("inputs", .strings inputs), ("outputs", .strings outputs),
          ("states", .ofList stateJson states),
          ("transitions", .ofList transitionJson transitions)] := rfl
    have hkeys : ["inputs", "name", "outputs", "states", "transitions"].Pairwise
        (· < ·) := by decide
    exact recovers_record _ hencode (.swap _ _ _) hkeys (hrest none) rfl
  | some first =>
    have hencode : toJson ⟨name, inputs, outputs, some first, states, transitions⟩ =
        .obj [("name", .str name), ("inputs", .strings inputs), ("outputs", .strings outputs),
          ("default_state", .str first), ("states", .ofList stateJson states),
          ("transitions", .ofList transitionJson transitions)] := rfl
    have hkeys : ["default_state", "inputs", "name", "outputs", "states", "transitions"].Pairwise
        (· < ·) := by decide
    exact recovers_record _ hencode
      ((@List.perm_middle _ _ [_, _, _] _).trans (.cons _ (.swap _ _ _))) hkeys
      (readEntries_cons rfl rfl (read_of (recovers_name first)) (hrest (some (some first)))) rfl

end TemplateModel

/-! ### Accepted documents -/

theorem named_of_state {s : Source} {e : StateEntry}
    (h : record (StateEntry.record string bool outputs) s = .ok e) : e.outputs.Named := by
  refine of_record (P := fun d : StateEntry.Draft => ∀ o, d.outputs = some o → o.Named)
    (Q := fun e : StateEntry => e.outputs.Named) ?_ ?_ ?_ h
  · intro o ho
    cases ho
  · intro field hfield value d d' hd hread
    simp only [StateEntry.record, List.mem_cons, List.not_mem_nil, or_false] at hfield
    rcases hfield with rfl | rfl | rfl
    · obtain ⟨_, -, rfl⟩ := map_eq_ok_iff.1 hread
      exact hd
    · obtain ⟨_, -, rfl⟩ := map_eq_ok_iff.1 hread
      exact hd
    · obtain ⟨o, ho, rfl⟩ := map_eq_ok_iff.1 hread
      intro o' ho'
      cases ho'
      exact named_of_outputs ho
  · intro d e hd he
    obtain ⟨name, isDefault, o⟩ := d
    cases name with
    | none => cases he
    | some name =>
      cases he
      cases o with
      | none => exact Outputs.named_empty
      | some o => exact hd o rfl

theorem named_of_document {s : Source} {doc : Document} (h : document s = .ok doc) :
    ∀ e ∈ doc.states, e.outputs.Named := by
  refine of_record (P := fun d : Document.Draft =>
      ∀ es, d.states = some es → ∀ e ∈ es, e.outputs.Named)
    (Q := fun doc : Document => ∀ e ∈ doc.states, e.outputs.Named) ?_ ?_ ?_ h
  · intro es hes
    cases hes
  · intro field hfield value d d' hd hread
    simp only [Document.record, List.mem_cons, List.not_mem_nil, or_false] at hfield
    rcases hfield with rfl | rfl | rfl
    · obtain ⟨_, -, rfl⟩ := map_eq_ok_iff.1 hread
      exact hd
    · obtain ⟨es, hes, rfl⟩ := map_eq_ok_iff.1 hread
      intro es' hes'
      cases hes'
      exact forall_of_list (fun _ _ => named_of_state) hes
    · obtain ⟨_, -, rfl⟩ := map_eq_ok_iff.1 hread
      exact hd
  · intro d doc hd hdoc
    obtain ⟨name, states, transitions⟩ := d
    cases states with
    | none => cases hdoc
    | some es =>
      cases hdoc
      exact hd es rfl

namespace Definition

theorem ofJson_eq_ok_iff {j : Json} {d : Definition} : ofJson j = .ok d ↔
    ∃ doc, Decoder.document (Source.ofJson j) = .ok doc ∧ ofDocument doc = .ok d := by
  simp only [ofJson, Json.decode, bind_eq_ok_iff, mapError_eq_ok_iff]

/-- Decoding undoes encoding, for documents whose outputs have good names and for template
models.  So whatever the form in which a definition was given, the canonical form of its
document has the same document, machine and checksum. -/
theorem encoding_recovered :
    (∀ doc : Document, (∀ s ∈ doc.states, s.outputs.Named) →
      Json.decode Decoder.document doc.toJson = .ok doc) ∧
    (∀ m : TemplateModel, TemplateModel.ofJson m.toJson = .ok m) ∧
    ∀ (j : Json) (d : Definition), ofJson j = .ok d → ofJson d.document.toJson = .ok d := by
  refine ⟨fun doc h => recovers_document h, fun m => TemplateModel.recovers_model m, ?_⟩
  intro j d hd
  obtain ⟨doc, hdoc, hbuild⟩ := ofJson_eq_ok_iff.1 hd
  have hdocument : d.document = doc := by
    obtain ⟨hdocument, -⟩ := (settles_ofDocument doc).of_eq_ok hbuild
    exact hdocument
  rw [hdocument]
  exact ofJson_eq_ok_iff.2 ⟨doc, recovers_document (named_of_document hdoc), hbuild⟩

/-- A source given by its name, levels given as a text and as a truth value, and fields in an
order of their own: the canonical form has the same definition, and the same document. -/
theorem respelt_document_recovered :
    let j : Json := .obj [
      ("transitions", .arr [.obj [("to", .str "on"), ("from", .str "off")]]),
      ("states", .arr [.obj [("outputs", .obj [("led", .str "0"), ("fan", .bool true)]),
        ("name", .str "off")], .obj [("name", .str "on"), ("default", .bool false)]])]
    let doc : Document := {
      states := [{ name := "off", outputs := NameMap.ofList [("fan", .high), ("led", .low)] },
        { name := "on" }]
      transitions := [{ sources := ["off"], target := "on", condition := "TRUE" }] }
    ∃ d, ofJson j = .ok d ∧ d.document = doc ∧ Json.decode Decoder.document doc.toJson = .ok doc ∧
      ofJson doc.toJson = .ok d := by
  intro j doc
  have hdefined : ∃ d, ofJson j = .ok d := ⟨_, rfl⟩
  obtain ⟨d, hd⟩ := hdefined
  have hdoc : d.document = doc := by
    cases hd
    rfl
  obtain ⟨hrecovers, -, hreread⟩ := encoding_recovered
  have hnamed : ∀ s ∈ doc.states, s.outputs.Named := by
    decide
  exact ⟨d, hd, hdoc, hrecovers doc hnamed, hdoc ▸ hreread j d hd⟩

end Definition

end Moore
