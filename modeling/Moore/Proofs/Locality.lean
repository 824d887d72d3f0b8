import Moore.Proofs.Access
import Moore.Proofs.History

/-
# What a machine depends on

Worlds share one store among all that is in it, and an analysis is handed the whole of it.  It
reads the registered states, the registered transitions and the ends of those, and nothing
else: in worlds that agree on these (`World.Agree`) every lookup that an analysis makes finds
the same, also where it finds nothing.
-/

namespace Moore

/-! ### Stores -/

namespace Store

variable {s t : Store} {ids : List StateId} {tids : List TransitionId}

theorem node?_congr {id : StateId} (h : s.state? id = t.state? id) : s.node? id = t.node? id := by
  rw [node?, node?, h]

theorem nodes?_congr (h : ∀ id ∈ ids, s.state? id = t.state? id) : s.nodes? ids = t.nodes? ids :=
  mapM_congr fun id hid => node?_congr (h id hid)

theorem names?_congr (h : ∀ id ∈ ids, s.state? id = t.state? id) : s.names? ids = t.names? ids := by
  rw [names?, names?, nodes?_congr h]

theorem outputs?_congr (h : ∀ id ∈ ids, s.state? id = t.state? id) :
    s.outputs? ids = t.outputs? ids := by
  rw [outputs?, outputs?, nodes?_congr h]

theorem missingOutputs?_congr (h : ∀ id ∈ ids, s.state? id = t.state? id) :
    s.missingOutputs? ids = t.missingOutputs? ids := by
  unfold missingOutputs?
  rw [outputs?_congr h, nodes?_congr h]

theorem transitions?_congr (h : ∀ id ∈ tids, s.transition? id = t.transition? id) :
    s.transitions? tids = t.transitions? tids :=
  mapM_congr h

theorem ends?_congr (side : Transition → StateId)
    (h : ∀ id ∈ tids, s.transition? id = t.transition? id) :
    s.ends? side tids = t.ends? side tids := by
  rw [ends?, ends?, transitions?_congr h]

theorem conditions?_congr (h : ∀ id ∈ tids, s.transition? id = t.transition? id) :
    s.conditions? tids = t.conditions? tids := by
  rw [conditions?, conditions?, transitions?_congr h]

theorem between?_congr (h : ∀ id ∈ tids, s.transition? id = t.transition? id)
    (source destination : Option StateId) (mode : FilterMode) :
    s.between? tids source destination mode = t.between? tids source destination mode := by
  rw [between?, between?, transitions?_congr h]

/-- A choice of transitions is made among the given ones. -/
theorem mem_of_mem_between? {source destination : Option StateId} {mode : FilterMode}
    {chosen : List TransitionId} (h : s.between? tids source destination mode = some chosen)
    {id : TransitionId} (hid : id ∈ chosen) : id ∈ tids := by
  obtain ⟨ts, -, rfl⟩ := Option.map_eq_some_iff.1 h
  obtain ⟨⟨id', t⟩, hp, rfl⟩ := List.mem_map.1 hid
  exact (List.of_mem_zip (List.mem_filter.1 hp).1).1

theorem leavingFindings?_congr {id : StateId} (hid : s.state? id = t.state? id)
    (h : ∀ id ∈ tids, s.transition? id = t.transition? id) :
    s.leavingFindings? tids id = t.leavingFindings? tids id := by
  unfold leavingFindings?
  rw [between?_congr h, node?_congr hid]
  refine Option.bind_congr fun leaving hleaving => ?_
  have hconditions : s.conditions? leaving = t.conditions? leaving :=
    conditions?_congr fun id hmem => h id (mem_of_mem_between? hleaving hmem)
  rw [hconditions]

/-- The stores agree on the two ends of a transition. -/
def AgreeOnEnds (s t : Store) (tr : Transition) : Prop :=
  s.state? tr.source = t.state? tr.source ∧ s.state? tr.destination = t.state? tr.destination

theorem parallelFindings?_congr {group : List Transition}
    (h : ∀ tr ∈ group, s.AgreeOnEnds t tr) :
    s.parallelFindings? group = t.parallelFindings? group := by
  cases group with
  | nil => rfl
  | cons tr group =>
    obtain ⟨hs, hd⟩ := h tr List.mem_cons_self
    rw [parallelFindings?, parallelFindings?, node?_congr hs, node?_congr hd]

end Store

/-- A group of transitions with the same ends is taken from the given ones. -/
theorem Transition.mem_of_mem_parallelGroups {ts group : List Transition} {t : Transition}
    (hgroup : group ∈ parallelGroups ts) (ht : t ∈ group) : t ∈ ts := by
  obtain ⟨ends, -, rfl⟩ := List.mem_map.1 (List.mem_filter.1 hgroup).1
  exact (List.mem_filter.1 ht).1

namespace Edit

/-- The edit stores something new and does nothing else. -/
def stores : Edit → Bool
  | newState .. | newTransition .. => true
  | _ => false

variable {e : Edit}

theorem stateChange?_of_stores {id : StateId} (h : e.stores = true) :
    e.stateChange? id = none := by
  cases e with
  | newState | newTransition => rfl
  | setName | setOutputs | setDefault | setCondition | addState | addTransition => cases h

theorem transitionChange?_of_stores {id : TransitionId} (h : e.stores = true) :
    e.transitionChange? id = none := by
  cases e with
  | newState | newTransition => rfl
  | setName | setOutputs | setDefault | setCondition | addState | addTransition => cases h

end Edit

/-! ### Worlds -/

namespace World

/-- Two worlds have the same machine and agree on what it is made of: the registered states,
the registered transitions and the ends of those. -/
structure Agree (v w : World) : Prop where
  machine : v.machine = w.machine
  states : ∀ id ∈ v.machine.states, v.store.state? id = w.store.state? id
  transitions : ∀ id ∈ v.machine.transitions, v.store.transition? id = w.store.transition? id
  ends : ∀ id ∈ v.machine.transitions, ∀ t, v.store.transition? id = some t →
    v.store.AgreeOnEnds w.store t

/-- Each analysis gives one result in both worlds, also when it goes by handles and meets one
that is not known. -/
structure SameAnalyses (v w : World) : Prop where
  diagnose : v.graph.diagnose = w.graph.diagnose
  template : ∀ name, TemplateModel.ofGraph name v.graph = TemplateModel.ofGraph name w.graph
  inputs : v.graph.inputs = w.graph.inputs
  outputs : v.graph.outputs = w.graph.outputs
  diagnose? : v.diagnose? = w.diagnose?
  template? : ∀ name, v.template? name = w.template? name
  inputs? : v.inputs? = w.inputs?
  outputs? : v.store.outputs? v.machine.states.handles = w.store.outputs? w.machine.states.handles

namespace Agree

variable {v w : World}

theorem edge?_eq (h : v.Agree w) {id : TransitionId} (hid : id ∈ v.machine.transitions) :
    v.store.edge? id = w.store.edge? id := by
  unfold Store.edge?
  rw [← h.transitions id hid]
  refine Option.bind_congr fun t ht => ?_
  obtain ⟨hs, hd⟩ := h.ends id hid t ht
  rw [Store.node?_congr hs, Store.node?_congr hd]

theorem inputs?_eq (h : v.Agree w) : v.inputs? = w.inputs? := by
  unfold inputs?
  rw [← h.machine, Store.conditions?_congr h.transitions]

/-- The ends of a registered transition, wherever it is looked up. -/
theorem ends_of_mem (h : v.Agree w) {ts : List Transition}
    (hts : v.store.transitions? v.machine.transitions.handles = some ts) :
    ∀ t ∈ ts, v.store.AgreeOnEnds w.store t := by
  intro t ht
  obtain ⟨id, hid, hread⟩ := exists_of_mem_mapM_some hts ht
  exact h.ends id hid t hread

/-- The states at one end of the transitions have the same names in both worlds. -/
theorem names?_ends (h : v.Agree w) {side : Transition → StateId}
    (hside : ∀ t, v.store.AgreeOnEnds w.store t →
      v.store.state? (side t) = w.store.state? (side t))
    {set : StateSet} (hset : v.store.ends? side v.machine.transitions.handles = some set)
    (other : StateSet) :
    v.store.names? (set.difference other).handles =
      w.store.names? (set.difference other).handles := by
  obtain ⟨ts, hts, rfl⟩ := Option.map_eq_some_iff.1 hset
  refine Store.names?_congr fun id hid => ?_
  have hmem : id ∈ ts.map side := HandleSet.mem_ofList.1 (List.mem_filter.1 hid).1
  obtain ⟨t, ht, rfl⟩ := List.mem_map.1 hmem
  exact hside t (h.ends_of_mem hts t ht)

theorem diagnose?_eq (h : v.Agree w) : v.diagnose? = w.diagnose? := by
  unfold diagnose?
  rw [← h.machine, ← Store.names?_congr h.states, ← Store.missingOutputs?_congr h.states,
    ← Store.ends?_congr Transition.source h.transitions,
    ← Store.ends?_congr Transition.destination h.transitions,
    ← Store.transitions?_congr h.transitions, ← Store.conditions?_congr h.transitions,
    ← mapM_congr fun id hid => Store.leavingFindings?_congr (h.states id hid) h.transitions]
  -- What is left are the lookups whose handles were themselves read off the transitions.
  refine Option.bind_congr fun names _ => Option.bind_congr fun missing _ =>
    Option.bind_congr fun sources hsources => Option.bind_congr fun destinations hdestinations => ?_
  rw [← h.names?_ends (fun _ hends => hends.1) hsources,
    ← h.names?_ends (fun _ hends => hends.2) hdestinations]
  refine Option.bind_congr fun unreachable _ => Option.bind_congr fun unexitable _ =>
    Option.bind_congr fun ts hts => ?_
  have hparallel : (Transition.parallelGroups ts).mapM v.store.parallelFindings? =
      (Transition.parallelGroups ts).mapM w.store.parallelFindings? :=
    mapM_congr fun group hgroup => Store.parallelFindings?_congr fun t ht =>
      h.ends_of_mem hts t (Transition.mem_of_mem_parallelGroups hgroup ht)
  rw [hparallel]

section Registered

-- The default state is one of the registered states, so the worlds agree on it.
variable (h : v.Agree w)
  (registered : ∀ id, v.machine.defaultState = some id → id ∈ v.machine.states)

include h registered

theorem default_node?_eq {id : StateId} (hid : v.machine.defaultState = some id) :
    v.store.node? id = w.store.node? id :=
  Store.node?_congr (h.states id (registered id hid))

theorem graph_eq : v.graph = w.graph := by
  unfold graph Store.nodes Store.edges
  rw [← h.machine, List.filterMap_congr fun id hid => h.edge?_eq hid,
    List.filterMap_congr fun id hid => Store.node?_congr (h.states id hid),
    Option.bind_congr fun id hid => h.default_node?_eq registered hid]

theorem template?_eq (name : String) : v.template? name = w.template? name := by
  have hdefault : v.machine.defaultState.mapM v.store.node? =
      v.machine.defaultState.mapM w.store.node? := by
    cases hid : v.machine.defaultState with
    | none => rfl
    | some id =>
      show some <$> v.store.node? id = some <$> w.store.node? id
      rw [h.default_node?_eq registered hid]
  unfold template?
  rw [← h.machine, ← h.inputs?_eq, ← Store.nodes?_congr h.states, ← Store.outputs?_congr h.states,
    ← hdefault, ← mapM_congr fun id hid => h.edge?_eq hid]

theorem sameAnalyses : v.SameAnalyses w where
  diagnose := congrArg Graph.diagnose (h.graph_eq registered)
  template name := congrArg (TemplateModel.ofGraph name) (h.graph_eq registered)
  inputs := congrArg Graph.inputs (h.graph_eq registered)
  outputs := congrArg Graph.outputs (h.graph_eq registered)
  diagnose? := h.diagnose?_eq
  template? := h.template?_eq registered
  inputs? := h.inputs?_eq
  outputs? := by rw [← h.machine, Store.outputs?_congr h.states]

end Registered

end Agree

/-! ### Storing more -/

variable {w : World} {es : List Edit}

theorem machine_run_of_stores (hes : ∀ e ∈ es, e.stores = true) :
    (w.run es).machine = w.machine := by
  induction es generalizing w with
  | nil => rfl
  | cons e es ih =>
    obtain ⟨hstores, htail⟩ := List.forall_mem_cons.1 hes
    rw [run_cons, ih htail]
    rcases step_cases w e with he | he
    · generalize w.step e = w' at he ⊢
      cases he with
      | newState | newTransition => rfl
      | setName | setOutputs | setDefault | setCondition | addState | addDefault
      | addTransition => cases hstores
    · rw [he]

/-- What is stored later is not part of the machine, and what was stored stays as it is. -/
theorem agree_run_of_stores (closed : w.Closed) (hes : ∀ e ∈ es, e.stores = true) :
    w.Agree (w.run es) := by
  have hstate : ∀ id, w.store.HasState id →
      w.store.state? id = (w.run es).store.state? id := by
    intro id hid
    obtain ⟨s, hs⟩ : ∃ s, w.store.state? id = some s := ⟨_, List.getElem?_eq_getElem hid⟩
    have hkept := (Place.state id).read_run_of_unnamed hs fun e he =>
      Edit.stateChange?_of_stores (hes e he)
    exact hs.trans hkept.symm
  refine ⟨(machine_run_of_stores hes).symm, fun id hid => hstate id (closed.states id hid), ?_, ?_⟩
  · intro id hid
    obtain ⟨t, ht⟩ := (closed.transitions id hid).exists_transition
    have hkept := (Place.transition id).read_run_of_unnamed ht fun e he =>
      Edit.transitionChange?_of_stores (hes e he)
    exact ht.trans hkept.symm
  · intro id hid t ht
    have hmem : t ∈ w.store.transitions := List.mem_of_getElem? ht
    exact ⟨hstate _ (closed.source t hmem), hstate _ (closed.destination t hmem)⟩

/-! ### Histories and analyses -/

/-- Entities do not interfere.  What a handle refers to after a run is what was stored under
it, changed by those later edits that succeeded and name it.  The analyses of a machine, whose
default state is a registered one, depend on nothing but the machine, what it registers and the
ends of its transitions, so storing more changes none of their results. -/
theorem entities_do_not_interfere :
    (∀ edits id s, (run {} edits).store.state? id = some s ↔
      ∃ before name given later created, edits = before ++ .newState name given :: later ∧
        (run {} before).store.nextState = id ∧ State.build name given = .ok created ∧
        s = (Place.state id).replay created
          ((run {} (before ++ [.newState name given])).accepted later)) ∧
    (∀ edits id t, (run {} edits).store.transition? id = some t ↔
      ∃ before source destination given later condition,
        edits = before ++ .newTransition source destination given :: later ∧
        (run {} before).store.nextTransition = id ∧
        (run {} before).store.HasState source ∧ (run {} before).store.HasState destination ∧
        given.condition = .ok condition ∧
        t = (Place.transition id).replay { source, destination, condition }
          ((run {} (before ++ [.newTransition source destination given])).accepted later)) ∧
    (∀ v w : World, v.Agree w →
      (∀ id, v.machine.defaultState = some id → id ∈ v.machine.states) → v.SameAnalyses w) ∧
    ∀ edits more, (∀ e ∈ more, e.stores = true) →
      (run {} edits).SameAnalyses (run {} (edits ++ more)) := by
  refine ⟨fun edits id s => ?_, fun edits id t => ?_, fun v w => Agree.sameAnalyses,
    fun edits more hmore => ?_⟩
  · refine (Place.state id).read_run_iff.trans ?_
    constructor
    · rintro ⟨before, _, later, created, hedits, ⟨name, given, rfl, hid, hbuild⟩, hs⟩
      exact ⟨before, name, given, later, created, hedits, hid, hbuild, hs⟩
    · rintro ⟨before, name, given, later, created, hedits, hid, hbuild, hs⟩
      exact ⟨before, _, later, created, hedits, ⟨name, given, rfl, hid, hbuild⟩, hs⟩
  · refine (Place.transition id).read_run_iff.trans ?_
    constructor
    · rintro ⟨before, _, later, _, hedits,
        ⟨source, destination, given, condition, rfl, hid, hs, hd, hc, rfl⟩, ht⟩
      exact ⟨before, source, destination, given, later, condition, hedits, hid, hs, hd, hc, ht⟩
    · rintro ⟨before, source, destination, given, later, condition, hedits, hid, hs, hd, hc, ht⟩
      exact ⟨before, _, later, _, hedits,
        ⟨source, destination, given, condition, rfl, hid, hs, hd, hc, rfl⟩, ht⟩
  · have hclosed : (run {} edits).Closed := closed_run edits
    rw [run_append]
    exact (agree_run_of_stores hclosed hmore).sameAnalyses hclosed.defaultState

/-- Of the edits after the second state is stored two concern it, and one of the others fails.
The machine registers this state, a third one and the transition between them, so the first one
can be renamed and a fourth one stored. -/
theorem neighbours_ignored :
    let before : List Edit := [.newState "off" []]
    let edited : List Edit := [.setName ⟨0⟩ "dark", .setName ⟨1⟩ "2nd",
      .setOutputs ⟨1⟩ [("lamp", .int 1)], .setDefault ⟨0⟩ true, .addState ⟨1⟩ true,
      .newState "dim" [], .addState ⟨2⟩ false]
    let later : List Edit :=
      edited ++ [.newTransition ⟨1⟩ ⟨2⟩ (.built (.var "fade")), .addTransition ⟨0⟩]
    let edits := before ++ .newState "on" [] :: later
    (run {} edits).store.state? ⟨1⟩ =
        some { name := "on", outputs := NameMap.ofList [("lamp", .high)], isDefault := true } ∧
      (run {} edits).store.transition? ⟨0⟩ = some ⟨⟨1⟩, ⟨2⟩, .var "fade"⟩ ∧
      (run {} edits).SameAnalyses (run {} (edits ++ [.setName ⟨0⟩ "off"])) ∧
      (run {} edits).SameAnalyses (run {} (edits ++ [.newState "broken" []])) := by
  intro before edited later edits
  obtain ⟨hstate, htransition, hagree, hstored⟩ := entities_do_not_interfere
  have hfade : (run {} edits).store.transition? ⟨0⟩ = some ⟨⟨1⟩, ⟨2⟩, .var "fade"⟩ :=
    (htransition edits ⟨0⟩ _).2 ⟨before ++ .newState "on" [] :: edited, ⟨1⟩, ⟨2⟩, _, _, .var "fade",
      rfl, by decide, by decide, by decide, rfl, by decide⟩
  have hrenamed : (run {} edits).Agree (run {} (edits ++ [.setName ⟨0⟩ "off"])) := by
    refine ⟨by decide, ?_, ?_, ?_⟩
    · show ∀ id ∈ (run {} edits).machine.states.handles, _
      decide
    · show ∀ id ∈ (run {} edits).machine.transitions.handles, _
      decide
    · have honly : (run {} edits).machine.transitions.handles = [⟨0⟩] := by decide
      intro id hid t ht
      rw [HandleSet.mem_def, honly, List.mem_singleton] at hid
      subst hid
      obtain rfl := Option.some.inj (hfade.symm.trans ht)
      exact ⟨by decide, by decide⟩
  refine ⟨(hstate edits ⟨1⟩ _).2 ⟨before, "on", [], later, { name := "on" }, rfl, by decide,
    by decide, by decide⟩, hfade, hagree _ _ hrenamed (by decide), hstored edits _ (by decide)⟩

end World

end Moore
