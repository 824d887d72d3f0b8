import Moore.Proofs.Document
import Moore.Proofs.Expr.Canonical
import Moore.Proofs.Lookup
import Moore.Report.Transitions

/-
# What is shown of a document

A document that defines a machine can always be reported, and has a template model under
every identifier.  `TemplateModel.Depicts` says what such a model is: it has the states of
the document, names for the ends of transitions that no other state bears, each condition in
both written forms, and the inputs and outputs that occur.

That nothing can fail rests on the documents being consistent: the ends of every transition
were looked up by name, and every condition was read from a text, so it has both forms.
-/

namespace Moore

/-! ### Reading back what is stored -/

theorem filterMap_getElem?_range {α : Type} (l : List α) :
    (List.range l.length).filterMap (l[·]?) = l := by
  induction l with
  | nil => rfl
  | cons a l ih =>
    rw [List.length_cons, List.range_succ_eq_map, List.filterMap_cons, List.filterMap_map]
    exact congrArg (a :: ·) ih

/-- The handles below a number, in order. -/
theorem HandleSet.handles_eq_range {kind : Entity} {set : HandleSet kind} {n : Nat}
    (h : ∀ id, id ∈ set ↔ id.index < n) : set.handles = (List.range n).map Handle.mk := by
  have hsorted : ((List.range n).map (@Handle.mk kind)).Pairwise
      fun a b => a.index < b.index := by
    rw [List.pairwise_map]
    exact List.pairwise_lt_range
  refine handles_eq_of_mem_iff hsorted fun id => ?_
  rw [h id, List.mem_map]
  constructor
  · intro hid
    exact ⟨id.index, List.mem_range.2 hid, rfl⟩
  · rintro ⟨i, hi, rfl⟩
    exact List.mem_range.1 hi

namespace World.Holds

variable {w : World} {es : List StateEntry} {ts : List Transition}

theorem lt_length_of_lastDefault {id : StateId} (h : lastDefault es = some id) :
    id.index < es.length := by
  unfold lastDefault at h
  obtain ⟨p, hp, rfl⟩ := Option.map_eq_some_iff.1 h
  have hmem := (List.mem_filter.1 (List.mem_of_getLast? hp)).1
  exact (List.getElem?_eq_some_iff.1 (List.mem_zipIdx_iff_getElem?.1 hmem)).1

theorem closed (h : w.Holds es ts)
    (hends : ∀ t ∈ ts, t.source.index < es.length ∧ t.destination.index < es.length) :
    w.Closed where
  source t ht := h.hasState_iff.2 (hends t (h.transitions ▸ ht)).1
  destination t ht := h.hasState_iff.2 (hends t (h.transitions ▸ ht)).2
  states id hid := (h.registeredStates id).1 hid
  transitions id hid := (h.registeredTransitions id).1 hid
  defaultState id hid := by
    rw [h.registeredStates, h.hasState_iff]
    exact lt_length_of_lastDefault (h.defaultState.symm.trans hid)

/-- The nodes of the graph show the states of the entries. -/
theorem nodes_map_state (h : w.Holds es ts) :
    w.graph.nodes.map Node.state = es.map StateEntry.state := by
  have hhandles := HandleSet.handles_eq_range fun id =>
    (h.registeredStates id).trans (Iff.rfl : w.store.HasState id ↔ id.index < w.store.states.length)
  rw [graph, Store.nodes_map_state, hhandles, List.filterMap_map, ← h.states]
  exact filterMap_getElem?_range w.store.states

/-- The edges of the graph show the transitions. -/
theorem edges_map_transition (h : w.Holds es ts) (hw : w.Closed) :
    w.graph.edges.map Edge.transition = ts := by
  have hhandles := HandleSet.handles_eq_range fun id =>
    (h.registeredTransitions id).trans
      (Iff.rfl : w.store.HasTransition id ↔ id.index < w.store.transitions.length)
  rw [hw.edges_map_transition, hhandles, List.filterMap_map, ← h.transitions]
  exact filterMap_getElem?_range w.store.transitions

end World.Holds

/-! ### Depiction -/

/-- The state of a model that an entry gives. -/
def StateEntry.template (e : StateEntry) : TemplateState where
  name := e.name
  isDefault := e.isDefault
  outputs := e.outputs

/-- A transition of a model shows a stored one: its two ends by names that no other state
has, and its condition in both written forms. -/
structure TemplateTransition.Depicts (names : List String) (t : Transition)
    (shown : TemplateTransition) : Prop where
  source : names[t.source.index]? = some shown.source
  source_count : names.count shown.source = 1
  destination : names[t.destination.index]? = some shown.destination
  destination_count : names.count shown.destination = 1
  condition : Expr.parse shown.condition = .ok t.condition
  relational : Expr.relational t.condition = .ok shown.relational

/-- A model shows a document with the transitions that it stands for. -/
structure TemplateModel.Depicts (m : TemplateModel) (name : String) (doc : Document)
    (ts : List Transition) : Prop where
  machineName : m.name = name
  states : m.states = doc.states.map StateEntry.template
  defaultState : m.defaultState =
    (lastDefault doc.states).bind fun id => (m.states.map (·.name))[id.index]?
  transitions : List.Forall₂ (TemplateTransition.Depicts (m.states.map (·.name))) ts m.transitions
  inputs_increasing : m.inputs.Pairwise (· < ·)
  mem_inputs : ∀ x, x ∈ m.inputs ↔ ∃ t ∈ ts, x ∈ t.condition.occurrences
  outputs_increasing : m.outputs.Pairwise (· < ·)
  mem_outputs : ∀ x, x ∈ m.outputs ↔ ∃ s ∈ doc.states, x ∈ s.outputs.names

namespace Document

variable {doc : Document} {name : String} {id : StateId}

theorem Names.getElem?_names (h : doc.Names name id) :
    (doc.states.map StateEntry.name)[id.index]? = some name := by
  obtain ⟨e, he, rfl⟩ := (h id.index).2 rfl
  rw [List.getElem?_map, he]
  rfl

theorem Names.count_names (h : doc.Names name id) :
    (doc.states.map StateEntry.name).count name = 1 := by
  have hnone : doc.endFaults .source name = [] := endFaults_eq_nil_iff.2 ⟨id, h⟩
  unfold endFaults at hnone
  rw [List.count_eq_countP, List.countP_map]
  split at hnone
  · cases hnone
  · next hone =>
    rw [← hone]
    exact List.countP_congr fun e _ => by simp
  · cases hnone

end Document

/-! ### Worlds drawn from documents -/

/-- The world is the one that a document draws, with these transitions. -/
structure World.DrawnFrom (w : World) (doc : Document) (ts : List Transition) : Prop where
  holds : w.Holds doc.states ts
  arrows : List.Forall₂ doc.Draws doc.arrows ts

namespace World.DrawnFrom

variable {w : World} {doc : Document} {ts : List Transition}

/-- Every transition comes from an arrow. -/
theorem exists_arrow (h : w.DrawnFrom doc ts) {t : Transition} (ht : t ∈ ts) :
    ∃ arrow, doc.Draws arrow t := by
  have hmem : ∀ {arrows : List (TransitionEntry × String)} {us : List Transition},
      List.Forall₂ doc.Draws arrows us → t ∈ us → ∃ arrow, doc.Draws arrow t := by
    intro arrows us hdraws
    induction hdraws with
    | nil =>
      intro ht
      cases ht
    | @cons arrow u _ _ hdraw _ ih =>
      intro ht
      rcases List.mem_cons.1 ht with rfl | ht
      · exact ⟨arrow, hdraw⟩
      · exact ih ht
  exact hmem h.arrows ht

theorem closed (h : w.DrawnFrom doc ts) : w.Closed := by
  refine h.holds.closed fun t ht => ?_
  obtain ⟨arrow, harrow⟩ := h.exists_arrow ht
  exact ⟨harrow.source.lt_length, harrow.destination.lt_length⟩

theorem edges_map_transition (h : w.DrawnFrom doc ts) :
    w.graph.edges.map Edge.transition = ts :=
  h.holds.edges_map_transition h.closed

theorem exists_arrow_of_edge (h : w.DrawnFrom doc ts) {e : Edge} (he : e ∈ w.graph.edges) :
    ∃ arrow, doc.Draws arrow e.transition :=
  h.exists_arrow (h.edges_map_transition ▸ List.mem_map_of_mem he)

theorem map_name_node? (h : w.DrawnFrom doc ts) (id : StateId) :
    (w.store.node? id).map Node.name = (doc.states.map StateEntry.name)[id.index]? := by
  rw [Store.node?, Store.state?, h.holds.states, List.getElem?_map, List.getElem?_map,
    Option.map_map, Option.map_map]
  rfl

/-- Every edge can be shown: its ends were looked up by name, and its condition was read from
a text. -/
theorem exists_ofEdge (h : w.DrawnFrom doc ts) {e : Edge} (he : e ∈ w.graph.edges) :
    ∃ shown, TemplateModel.ofEdge e = .ok shown ∧
      shown.Depicts (doc.states.map StateEntry.name) e.transition := by
  obtain ⟨arrow, hdraws⟩ := h.exists_arrow_of_edge he
  obtain ⟨-, t, -, hs, hd, -⟩ := Store.edge?_eq_some_iff.1 (Store.mem_edges.1 he).2
  have hname : ∀ {id : StateId} {n : Node}, w.store.node? id = some n →
      (doc.states.map StateEntry.name)[n.id.index]? = some n.name := by
    intro id n hn
    rw [(Store.node?_eq_some_iff.1 hn).1, ← h.map_name_node?, hn, Option.map_some]
  have hsource : e.source.name = arrow.2 :=
    Option.some.inj ((hname hs).symm.trans hdraws.source.getElem?_names)
  have hdestination : e.destination.name = arrow.1.target :=
    Option.some.inj ((hname hd).symm.trans hdraws.destination.getElem?_names)
  have hparse : Expr.parse arrow.1.condition = .ok e.condition := hdraws.condition
  obtain ⟨text, htext⟩ := exists_relational_of_parse hparse
  refine ⟨⟨e.source.name, e.destination.name, e.condition.text, text⟩, ?_, ?_⟩
  · unfold TemplateModel.ofEdge Condition.relational
    rw [htext]
    rfl
  · exact {
      source := hname hs
      source_count := by
        rw [hsource]
        exact hdraws.source.count_names
      destination := hname hd
      destination_count := by
        rw [hdestination]
        exact hdraws.destination.count_names
      condition := parse_text_of_parse hparse
      relational := htext }

theorem exists_transitions (h : w.DrawnFrom doc ts) :
    ∃ shown, w.graph.edges.mapM TemplateModel.ofEdge = .ok shown ∧
      List.Forall₂ (TemplateTransition.Depicts (doc.states.map StateEntry.name)) ts shown := by
  obtain ⟨shown, hshown, hrel⟩ := exists_mapM_eq_ok fun e he => h.exists_ofEdge (e := e) he
  refine ⟨shown, hshown, ?_⟩
  rw [← h.edges_map_transition, List.forall₂_map_left_iff]
  exact hrel

theorem nodes_map_template (h : w.DrawnFrom doc ts) :
    w.graph.nodes.map TemplateModel.ofNode = doc.states.map StateEntry.template := by
  have htemplate := congrArg (List.map fun s : State =>
    (⟨s.name, s.isDefault, s.outputs⟩ : TemplateState)) h.holds.nodes_map_state
  rw [List.map_map, List.map_map] at htemplate
  exact htemplate

theorem mem_inputs (h : w.DrawnFrom doc ts) {x : String} :
    x ∈ w.graph.inputs ↔ ∃ t ∈ ts, x ∈ t.condition.occurrences := by
  unfold Graph.inputs ConditionSet.inputs Edges.conditions
  rw [Ordered.mem_ofList, List.flatMap_map, List.mem_flatMap, ← h.edges_map_transition]
  simp only [List.mem_map, exists_exists_and_eq_and]
  rfl

end World.DrawnFrom

/-! ### Inputs and outputs -/

theorem names_tally (l : List String) : (tally l).map (·.1) = Ordered.ofList compare l := by
  unfold tally
  rw [List.map_map]
  exact List.map_id' _

theorem pairwise_lt_ofList (l : List String) :
    (Ordered.ofList compare l).Pairwise (· < ·) := by
  refine (Ordered.strict_ofList l).imp ?_
  intro x y h
  exact compareOfLessAndEq_eq_lt.1 h

namespace World.DrawnFrom

variable {w : World} {doc : Document} {ts : List Transition}

theorem outputs_eq (h : w.DrawnFrom doc ts) : w.graph.outputs.map (·.1) =
    Ordered.ofList compare (doc.states.flatMap (·.outputs.names)) := by
  have hstored : w.graph.nodes.flatMap (·.state.outputs.names) =
      doc.states.flatMap (·.outputs.names) := by
    have hflat := congrArg (List.flatMap fun s : State => s.outputs.names) h.holds.nodes_map_state
    rw [List.flatMap_map, List.flatMap_map] at hflat
    exact hflat
  rw [← hstored]
  exact names_tally _

/-- The model of the machine depicts the document. -/
theorem depicts (h : w.DrawnFrom doc ts) (name : String) {shown : List TemplateTransition}
    (hshown : List.Forall₂ (TemplateTransition.Depicts (doc.states.map StateEntry.name)) ts shown) :
    TemplateModel.Depicts {
      name
      inputs := w.graph.inputs
      outputs := w.graph.outputs.map (·.1)
      defaultState := w.graph.defaultNode.map Node.name
      states := w.graph.nodes.map TemplateModel.ofNode
      transitions := shown } name doc ts := by
  have hnames : (w.graph.nodes.map TemplateModel.ofNode).map (·.name) =
      doc.states.map StateEntry.name := by
    rw [h.nodes_map_template, List.map_map]
    rfl
  refine ⟨rfl, h.nodes_map_template, ?_, ?_, pairwise_lt_ofList _, fun x => h.mem_inputs, ?_, ?_⟩
  · show (w.machine.defaultState.bind w.store.node?).map Node.name = _
    rw [h.holds.defaultState, hnames, Option.map_bind]
    exact congrArg (Option.bind _) (funext h.map_name_node?)
  · rw [hnames]
    exact hshown
  · rw [h.outputs_eq]
    exact pairwise_lt_ofList _
  · intro x
    rw [h.outputs_eq, Ordered.mem_ofList, List.mem_flatMap]

end World.DrawnFrom

namespace Definition

variable {doc : Document} {d : Definition}

theorem exists_loweredText (h : ∀ e ∈ d.graph.edges, ∃ text, Expr.parse text = .ok e.condition)
    (colors : Bool) : ∃ text, d.loweredText colors = .ok text := by
  obtain ⟨lines, hlines, -⟩ := exists_mapM_eq_ok (f := loweredLine colors)
    (R := fun _ _ => True) (l := d.graph.edges) (by
      intro e he
      obtain ⟨text, htext⟩ := h e he
      obtain ⟨relational, hrelational⟩ := exists_relational_of_parse htext
      unfold loweredLine Condition.relational
      rw [hrelational]
      exact ⟨_, rfl, trivial⟩)
  unfold loweredText
  rw [hlines]
  by_cases hempty : lines.isEmpty = true
  · exact ⟨_, if_pos hempty⟩
  · exact ⟨_, if_neg hempty⟩

/-- What a document defines can be shown, as a report and, under any identifier, as a template
model, and the model depicts the document. -/
theorem model_depicts_document (h : ofDocument doc = .ok d) :
    (∀ colors, ∃ text, d.loweredText colors = .ok text) ∧
      ∀ given : Option String,
        ((∃ m, d.template given = .ok m) ↔ isIdentifier (given.getD d.name) = true) ∧
        (isIdentifier (given.getD d.name) = false →
          d.template given = .error (.expr (.invalidIdentifier (given.getD d.name)))) ∧
        ∀ m, d.template given = .ok m →
          m.Depicts (given.getD d.name) doc d.world.store.transitions := by
  obtain ⟨-, ts, hholds, harrows⟩ := (settles_ofDocument doc).of_eq_ok h
  have hdrawn : d.world.DrawnFrom doc ts := ⟨hholds, harrows⟩
  obtain ⟨shown, hshown, hdepicts⟩ := hdrawn.exists_transitions
  refine ⟨exists_loweredText ?_, fun given => ?_⟩
  · intro e he
    obtain ⟨arrow, harrow⟩ := hdrawn.exists_arrow_of_edge he
    exact ⟨arrow.1.condition, harrow.condition⟩
  · have hmodel := hdrawn.depicts (given.getD d.name) hdepicts
    have hedges : d.graph.edges.mapM TemplateModel.ofEdge = .ok shown := hshown
    unfold template TemplateModel.ofGraph checkIdentifier
    rw [hedges, hholds.transitions]
    by_cases hname : isIdentifier (given.getD d.name) = true
    · rw [if_pos hname]
      refine ⟨iff_of_true ⟨_, rfl⟩ hname, fun hnot => absurd hname (by simp [hnot]), ?_⟩
      rintro m hm
      cases hm
      exact hmodel
    · rw [if_neg hname]
      refine ⟨iff_of_false ?_ hname, fun _ => rfl, ?_⟩
      · rintro ⟨m, hm⟩
        cases hm
      · intro m hm
        cases hm

/-- Two states may share a name that no transition uses.  The machine has a model under a good
name, and under a bad one it has none. -/
theorem spare_states_shown :
    let doc : Document := {
      name := some "Toggle"
      states := [{ name := "off", isDefault := true }, { name := "on" },
        { name := "spare" }, { name := "spare" }]
      transitions := [{ sources := ["off", "on"], target := "on", condition := "b & ~(a)" }] }
    ∃ d, ofDocument doc = .ok d ∧ (∃ text, d.loweredText false = .ok text) ∧
      (∃ m, d.template none = .ok m ∧ m.Depicts "Toggle" doc d.world.store.transitions) ∧
      d.template (some "1st") = .error (.expr (.invalidIdentifier "1st")) := by
  intro doc
  have hdoc : ∃ d, ofDocument doc = .ok d := ⟨_, rfl⟩
  obtain ⟨d, hd⟩ := hdoc
  obtain ⟨htext, hmodel⟩ := model_depicts_document hd
  have hname : d.name = "Toggle" := by
    cases hd
    rfl
  obtain ⟨hiff, -, hdepicts⟩ := hmodel none
  rw [Option.getD_none, hname] at hiff hdepicts
  obtain ⟨m, hm⟩ := hiff.2 rfl
  have hbad : isIdentifier "1st" = false := by decide
  exact ⟨d, hd, htext false, ⟨m, hm, hdepicts m hm⟩, (hmodel (some "1st")).2.1 hbad⟩

end Definition

end Moore
