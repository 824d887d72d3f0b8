import Moore.Diagnosis
import Moore.Proofs.Grouping
import Moore.Proofs.Lookup
import Moore.Proofs.State
import Moore.Template

/-
# Analyses by handle

The analyses of a machine are functions of its graph, which holds no handle that the store
does not know.  Here they are stated once more as they go by handles: every handle is looked
up, and there is no result if one of them is unknown.  In a world without bad handles
(`World.Closed`), such as every run of edits leaves (`World.closed_run`), each analysis has a
result, the one that the graph gives.

Most analyses look up what the machine registers and the ends of its transitions.  The states
that are only left or only entered are found as a difference of two sets of handles, so these
sets are compared with the lists of nodes first.
-/

namespace Moore

/-! ### Sets of handles -/

theorem HandleSet.mem_ofList {kind : Entity} {l : List (Handle kind)} {id : Handle kind} :
    id ∈ HandleSet.ofList l ↔ id ∈ l := by
  have hfold : ∀ (l : List (Handle kind)) (set : HandleSet kind),
      id ∈ l.foldl HandleSet.insert set ↔ id ∈ l ∨ id ∈ set := by
    intro l
    induction l with
    | nil =>
      intro set
      simp
    | cons a l ih =>
      intro set
      rw [List.foldl_cons, ih, HandleSet.mem_insert, List.mem_cons, or_left_comm, or_assoc]
  unfold HandleSet.ofList
  rw [hfold]
  simp

namespace Nodes

instance : Std.TransCmp Nodes.cmp :=
  inferInstanceAs (Std.TransCmp (compareOn fun n : Node => n.id.index))

/-- Nodes are told apart by their handles, so inserting one adds just its handle. -/
theorem mem_ids_insert {id : StateId} {n : Node} {ns : List Node} :
    id ∈ (Ordered.insert cmp n ns).map Node.id ↔ id = n.id ∨ id ∈ ns.map Node.id := by
  induction ns with
  | nil => simp [Ordered.insert]
  | cons m ns ih =>
    unfold Ordered.insert
    cases hcmp : cmp n m with
    | lt => simp
    | eq =>
      have hid : n.id = m.id := by
        have hindex := Nat.compare_eq_eq.1 hcmp
        cases hn : n.id
        cases hm : m.id
        rw [hn, hm] at hindex
        exact congrArg Handle.mk hindex
      simp [hid]
    | gt =>
      simp only [List.map_cons, List.mem_cons, ih]
      exact or_left_comm

theorem mem_ids_distinct {id : StateId} {ns : List Node} :
    id ∈ (distinct ns).map Node.id ↔ id ∈ ns.map Node.id := by
  unfold distinct
  induction ns with
  | nil => rfl
  | cons n ns ih =>
    rw [Ordered.ofList_cons, mem_ids_insert, ih, List.map_cons, List.mem_cons]

theorem mem_of_mem_distinct {n : Node} {ns : List Node} (h : n ∈ distinct ns) : n ∈ ns := by
  unfold distinct at h
  induction ns with
  | nil => exact h
  | cons m ns ih =>
    rcases Ordered.mem_insert_self_or _ _ h with rfl | h
    · exact List.mem_cons_self
    · exact List.mem_cons_of_mem _ (ih h)

/-- The nodes of a list, each once, are those of the set of their handles. -/
theorem handles_ofList_ids (ns : List Node) :
    (HandleSet.ofList (ns.map Node.id)).handles = (distinct ns).map Node.id := by
  refine HandleSet.handles_eq_of_mem_iff ?_ fun id => ?_
  · rw [List.pairwise_map]
    refine (Ordered.strict_ofList ns).imp ?_
    intro m n hlt
    exact Nat.compare_eq_lt.1 hlt
  · rw [HandleSet.mem_ofList, mem_ids_distinct]

theorem handles_difference {ms ns : List Node} {s t : StateSet}
    (hs : s.handles = ms.map Node.id) (ht : t.handles = ns.map Node.id) :
    (s.difference t).handles = (difference ms ns).map Node.id := by
  show s.handles.filter (fun id => !t.handles.contains id) = _
  rw [hs, ht, List.filter_map]
  refine congrArg (List.map Node.id) (List.filter_congr fun m _ => ?_)
  simp [List.any_eq, eq_comm]

end Nodes

/-! ### Reading sets -/

/-- Whether a transition has the given ends, as `Edges.between` takes them. -/
def Transition.joins (source destination : Option StateId) (mode : FilterMode) (t : Transition) :
    Bool :=
  let leaves := source = some t.source
  let enters := destination = some t.destination
  if mode = .and ∧ source.isSome ∧ destination.isSome then leaves && enters
  else leaves || enters

/-- The groups of two or more transitions with the same ends. -/
def Transition.parallelGroups (ts : List Transition) : List (List Transition) :=
  ((ts.map fun t => (t.source, t.destination)).eraseDups.map fun ends =>
    ts.filter fun t => (t.source, t.destination) = ends).filter (1 < ·.length)

namespace Store

variable (s : Store)

/-- The names of some states. -/
def names? (ids : List StateId) : Option (List String) :=
  (s.nodes? ids).map (List.map Node.name)

/-- The states of a name. -/
def named? (ids : List StateId) (name : String) : Option (List StateId) :=
  (s.nodes? ids).map fun ns => (Nodes.named ns name).map Node.id

/-- The outputs of some states, each with the number of states that define it. -/
def outputs? (ids : List StateId) : Option (List (String × Nat)) :=
  (s.nodes? ids).map Nodes.outputs

/-- The states at one end of transitions. -/
def ends? (side : Transition → StateId) (ids : List TransitionId) : Option StateSet :=
  (s.transitions? ids).map fun ts => HandleSet.ofList (ts.map side)

def conditions? (ids : List TransitionId) : Option ConditionSet :=
  (s.transitions? ids).map (List.map Transition.condition)

/-- The transitions with the given ends. -/
def between? (ids : List TransitionId) (source destination : Option StateId)
    (mode : FilterMode) : Option (List TransitionId) :=
  (s.transitions? ids).map fun ts =>
    ((ids.zip ts).filter fun p => p.2.joins source destination mode).map (·.1)

/-- Refuses states that are only ever left, then those that are only ever entered. -/
def checkReachability? (ids : List TransitionId) : Option (Except ModelError Unit) := do
  let sources ← s.ends? Transition.source ids
  let destinations ← s.ends? Transition.destination ids
  let unreachable ← s.names? (sources.difference destinations).handles
  let unexitable ← s.names? (destinations.difference sources).handles
  if !unreachable.isEmpty then return .error (.unreachable unreachable)
  else if !unexitable.isEmpty then return .error (.unexitable unexitable)
  else return .ok ()

/-- The findings about outputs that some of the states lack. -/
def missingOutputs? (ids : List StateId) : Option (List Finding) := do
  let outputs ← s.outputs? ids
  (outputs.filter (·.2 ≠ ids.length)).mapM fun p => do
    let ns ← s.nodes? ids
    return .missingOutput p.1
      ((ns.filter fun n => (n.state.outputs.get? p.1).isNone).map Node.name)

/-- The findings about a group of transitions with the same ends. -/
def parallelFindings? : List Transition → Option (List Finding)
  | [] => some []
  | t :: ts => do
    let source ← s.node? t.source
    let destination ← s.node? t.destination
    return [.parallelTransitions source.name destination.name
      ((t :: ts).map (·.condition.text))]

/-- The findings about the conditions of the transitions that leave a state. -/
def leavingFindings? (ids : List TransitionId) (id : StateId) : Option (List Finding) := do
  let leaving ← s.between? ids (some id) none .and
  if leaving.isEmpty then return []
  let n ← s.node? id
  return Graph.leavingFindings n.name (← s.conditions? leaving)

section Shown

variable {s : Store} {ns : List Node} {es : List Edge}

theorem ShowsNodes.names?_eq (h : s.ShowsNodes ns) :
    s.names? (ns.map Node.id) = some (ns.map Node.name) := by
  rw [names?, h.nodes?_eq, Option.map_some]

theorem ShowsEdges.between?_eq (h : s.ShowsEdges es) (source destination : Option StateId)
    (mode : FilterMode) : s.between? (es.map Edge.id) source destination mode =
      some ((Edges.between source destination mode es).map Edge.id) := by
  rw [between?, h.transitions?_eq, Option.map_some, List.zip_map', List.filter_map, List.map_map]
  rfl

theorem ShowsEdges.conditions?_eq (h : s.ShowsEdges es) :
    s.conditions? (es.map Edge.id) = some (Edges.conditions es) := by
  rw [conditions?, h.transitions?_eq, Option.map_some, List.map_map]
  rfl

theorem ShowsEdges.ends?_eq (h : s.ShowsEdges es) {side : Transition → StateId}
    {node : Edge → Node} (hside : ∀ e, side e.transition = (node e).id) :
    s.ends? side (es.map Edge.id) = some (HandleSet.ofList ((es.map node).map Node.id)) := by
  rw [ends?, h.transitions?_eq, Option.map_some, List.map_map, List.map_map]
  exact congrArg (some <| HandleSet.ofList ·) (List.map_congr_left fun e _ => hside e)

theorem ShowsEdges.sources?_eq (h : s.ShowsEdges es) :
    s.ends? Transition.source (es.map Edge.id) =
      some (HandleSet.ofList ((es.map (·.source)).map Node.id)) :=
  h.ends?_eq fun _ => rfl

theorem ShowsEdges.destinations?_eq (h : s.ShowsEdges es) :
    s.ends? Transition.destination (es.map Edge.id) =
      some (HandleSet.ofList ((es.map (·.destination)).map Node.id)) :=
  h.ends?_eq fun _ => rfl

/-- The names of the nodes that only one of two lists holds are found by their handles. -/
theorem names?_difference {ms : List Node} (hm : s.ShowsNodes ms) :
    s.names? ((HandleSet.ofList (ms.map Node.id)).difference
      (HandleSet.ofList (ns.map Node.id))).handles =
        some ((Nodes.difference (Nodes.distinct ms) (Nodes.distinct ns)).map Node.name) := by
  rw [Nodes.handles_difference (Nodes.handles_ofList_ids ms) (Nodes.handles_ofList_ids ns)]
  refine (hm.subset fun n hn => ?_).names?_eq
  exact Nodes.mem_of_mem_distinct (List.mem_filter.1 hn).1

theorem ShowsEdges.checkReachability?_eq (h : s.ShowsEdges es) :
    s.checkReachability? (es.map Edge.id) = some (Edges.checkReachability es) := by
  unfold checkReachability?
  rw [h.sources?_eq, h.destinations?_eq]
  simp only [Option.bind_eq_bind, Option.bind_some]
  rw [names?_difference h.sources, names?_difference h.destinations]
  simp only [Option.bind_some, List.isEmpty_map]
  unfold Edges.checkReachability
  by_cases hu : (!(Edges.unreachable es).isEmpty) = true
  · exact (if_pos hu).trans (congrArg some (if_pos hu).symm)
  · refine (if_neg hu).trans (Eq.trans ?_ (congrArg some (if_neg hu).symm))
    by_cases hx : (!(Edges.unexitable es).isEmpty) = true
    · exact (if_pos hx).trans (congrArg some (if_pos hx).symm)
    · exact (if_neg hx).trans (congrArg some (if_neg hx).symm)

theorem ShowsNodes.missingOutputs?_eq (h : s.ShowsNodes ns) :
    s.missingOutputs? (ns.map Node.id) =
      some (Graph.missingOutputs { nodes := ns, edges := [], defaultNode := none }) := by
  unfold missingOutputs? outputs?
  rw [h.nodes?_eq, Option.map_some, Option.bind_eq_bind, Option.bind_some]
  refine (mapM_eq_pure fun _ _ => rfl).trans (congrArg some ?_)
  rw [← List.filterMap_eq_map, List.filterMap_filter, List.length_map]
  refine List.filterMap_congr fun p _ => ?_
  by_cases hp : p.2 = ns.length
  · simp [hp]
  · simp [hp, Graph.lacking]

theorem ShowsEdges.parallelFindings?_eq (h : s.ShowsEdges es) :
    s.parallelFindings? (es.map Edge.transition) = some (Graph.parallelFinding? es).toList := by
  cases es with
  | nil => rfl
  | cons e es =>
    have hs := h.sources e.source (List.mem_map_of_mem List.mem_cons_self)
    have hd := h.destinations e.destination (List.mem_map_of_mem List.mem_cons_self)
    show (s.node? e.source.id >>= fun source => s.node? e.destination.id >>= fun destination =>
      pure [Finding.parallelTransitions source.name destination.name
        (((e :: es).map Edge.transition).map (·.condition.text))]) = _
    rw [hs, hd]
    show some _ = some _
    rw [List.map_map]
    rfl

theorem parallelGroups_map {es : List Edge} (hids : (es.map Edge.id).Nodup) :
    Transition.parallelGroups (es.map Edge.transition) =
      (Edges.parallelGroups es).map (List.map Edge.transition) := by
  rw [Edges.parallelGroups_eq_classes hids]
  unfold Transition.parallelGroups Edges.parallelClasses
  have hends : (es.map Edge.transition).map (fun t => (t.source, t.destination)) =
      es.map Edges.ends := by
    rw [List.map_map]
    rfl
  have hgroups : ∀ ends : StateId × StateId,
      (es.map Edge.transition).filter (fun t => (t.source, t.destination) = ends) =
        (es.filter (Edges.ends · = ends)).map Edge.transition := by
    intro ends
    rw [List.filter_map]
    rfl
  simp only [hends, hgroups]
  rw [show (fun ends : StateId × StateId =>
      (es.filter (Edges.ends · = ends)).map Edge.transition) =
        List.map Edge.transition ∘ fun ends => es.filter (Edges.ends · = ends) from rfl,
    ← List.map_map, List.filter_map]
  refine congrArg (List.map (List.map Edge.transition)) (List.filter_congr fun group _ => ?_)
  simp

/-- Every group is looked up by its first member, and the findings are those of the edges. -/
theorem ShowsEdges.exists_parallelFindings (h : s.ShowsEdges es) (hids : (es.map Edge.id).Nodup) :
    ∃ found, (Transition.parallelGroups (es.map Edge.transition)).mapM s.parallelFindings? =
        some found ∧
      found.flatten = (Edges.parallelGroups es).filterMap Graph.parallelFinding? := by
  refine ⟨(Edges.parallelGroups es).map fun group => (Graph.parallelFinding? group).toList, ?_, ?_⟩
  · rw [parallelGroups_map hids]
    exact mapM_map_eq_pure fun group hgroup =>
      (h.subset (Edges.subset_of_mem_parallelGroups group hgroup)).parallelFindings?_eq
  · rw [List.filterMap_eq_flatMap_toList]
    rfl

theorem ShowsEdges.leavingFindings?_eq (h : s.ShowsEdges es) {n : Node}
    (hn : s.node? n.id = some n) : s.leavingFindings? (es.map Edge.id) n.id =
      some (Graph.leavingFindings n.name (Edges.conditions (Edges.leaving n.id es))) := by
  have hleaving : s.ShowsEdges (Edges.leaving n.id es) :=
    h.subset fun e he => (List.mem_filter.1 he).1
  unfold leavingFindings?
  rw [h.between?_eq]
  show (if ((Edges.leaving n.id es).map Edge.id).isEmpty = true then pure [] else
    s.node? n.id >>= fun m => s.conditions? ((Edges.leaving n.id es).map Edge.id) >>= fun cs =>
      pure (Graph.leavingFindings m.name cs)) = _
  rw [hn, List.isEmpty_map]
  by_cases hempty : (Edges.leaving n.id es).isEmpty = true
  · rw [if_pos hempty, List.isEmpty_iff.1 hempty]
    rfl
  · rw [if_neg hempty, Option.bind_eq_bind, Option.bind_some, hleaving.conditions?_eq]
    rfl

end Shown

end Store

/-! ### Analyses -/

namespace World

variable (w : World)

/-- The names of the inputs that registered transitions read. -/
def inputs? : Option (List String) :=
  (w.store.conditions? w.machine.transitions.handles).map ConditionSet.inputs

/-- All checks, each of which looks up the handles that it goes by. -/
def diagnose? : Option Diagnosis := do
  let names ← w.store.names? w.machine.states.handles
  let missing ← w.store.missingOutputs? w.machine.states.handles
  let sources ← w.store.ends? Transition.source w.machine.transitions.handles
  let destinations ← w.store.ends? Transition.destination w.machine.transitions.handles
  let unreachable ← w.store.names? (sources.difference destinations).handles
  let unexitable ← w.store.names? (destinations.difference sources).handles
  let ts ← w.store.transitions? w.machine.transitions.handles
  let parallel ← (Transition.parallelGroups ts).mapM w.store.parallelFindings?
  let leaving ← w.machine.states.handles.mapM
    (w.store.leavingFindings? w.machine.transitions.handles)
  let conditions ← w.store.conditions? w.machine.transitions.handles
  return {
    findings :=
      (tally names).filterMap (fun (name, count) =>
        if 1 < count then some (.duplicateName name count) else none) ++ missing ++
      (if unreachable.isEmpty then [] else [.unreachable unreachable]) ++
      (if unexitable.isEmpty then [] else [.unexitable unexitable]) ++
      (if w.machine.defaultState.isNone then [.missingDefault] else []) ++
      parallel.flatten ++ leaving.flatten
    exclusive := ConditionSet.isExclusive conditions
    exhaustive := ConditionSet.isExhaustive conditions }

/-- The template model, which looks up both ends of every transition. -/
def template? (name : String) : Option (Except ModelError TemplateModel) :=
  match checkIdentifier name with
  | .error e => some (.error (.expr e))
  | .ok _ => do
    let ns ← w.store.nodes? w.machine.states.handles
    let es ← w.machine.transitions.handles.mapM w.store.edge?
    let inputs ← w.inputs?
    let outputs ← w.store.outputs? w.machine.states.handles
    let defaultNode ← w.machine.defaultState.mapM w.store.node?
    return do
      let transitions ← es.mapM TemplateModel.ofEdge
      return {
        name, inputs, transitions
        outputs := outputs.map (·.1)
        defaultState := defaultNode.map Node.name
        states := ns.map TemplateModel.ofNode }

variable {w}

namespace Closed

theorem inputs?_eq (h : w.Closed) : w.inputs? = some w.graph.inputs := by
  have hedges : w.store.ShowsEdges w.graph.edges := w.store.showsEdges_edges _
  unfold inputs?
  rw [h.transitions_handles, hedges.conditions?_eq]
  rfl

/-- The default state is stored, so it is the default node. -/
theorem default_eq (h : w.Closed) :
    w.machine.defaultState.mapM w.store.node? = some w.graph.defaultNode ∧
      w.machine.defaultState.isNone = w.graph.defaultNode.isNone := by
  unfold graph
  cases hdefault : w.machine.defaultState with
  | none => exact ⟨rfl, rfl⟩
  | some id =>
    obtain ⟨n, hn⟩ := (h.states id (h.defaultState id hdefault)).exists_node
    show (some <$> w.store.node? id) = some (w.store.node? id) ∧
      false = (w.store.node? id).isNone
    rw [hn]
    exact ⟨rfl, rfl⟩

theorem template?_eq (h : w.Closed) (name : String) :
    w.template? name = some (TemplateModel.ofGraph name w.graph) := by
  have hnodes : w.store.ShowsNodes w.graph.nodes := w.store.showsNodes_nodes _
  have hedges : w.machine.transitions.handles.mapM w.store.edge? = some w.graph.edges := by
    rw [h.transitions_handles]
    exact mapM_map_eq_self fun e he => (Store.mem_edges.1 he).2
  unfold template? TemplateModel.ofGraph
  cases hname : checkIdentifier name with
  | error e => rfl
  | ok u =>
    simp only [Store.outputs?]
    rw [h.states_handles, hnodes.nodes?_eq, hedges, h.inputs?_eq, h.default_eq.1]
    rfl

theorem diagnose?_eq (h : w.Closed) : w.diagnose? = some w.graph.diagnose := by
  have hnodes : w.store.ShowsNodes w.graph.nodes := w.store.showsNodes_nodes _
  have hedges : w.store.ShowsEdges w.graph.edges := w.store.showsEdges_edges _
  obtain ⟨found, hfound, hparallel⟩ := hedges.exists_parallelFindings (w.store.nodup_ids_edges _)
  have hleaving : (w.graph.nodes.map Node.id).mapM
      (w.store.leavingFindings? (w.graph.edges.map Edge.id)) =
        some (w.graph.nodes.map fun n =>
          Graph.leavingFindings n.name (w.graph.leavingConditions n.id)) :=
    mapM_map_eq_pure fun n hn => hedges.leavingFindings?_eq (hnodes n hn)
  -- The registered handles are those of the graph, so every lookup gives what the graph shows.
  unfold diagnose?
  rw [h.states_handles, h.transitions_handles, hnodes.names?_eq, hnodes.missingOutputs?_eq,
    hedges.sources?_eq, hedges.destinations?_eq, hedges.transitions?_eq, hedges.conditions?_eq,
    hleaving]
  simp only [Option.bind_eq_bind, Option.bind_some]
  rw [Store.names?_difference hedges.sources, Store.names?_difference hedges.destinations, hfound]
  simp only [Option.bind_some]
  -- Both sides now list the same findings, the default state's by the handle or by the node.
  rw [hparallel, h.default_eq.2]
  simp only [List.isEmpty_map]
  rfl

end Closed

/-- Whatever is done to an empty world, and in whatever order, handles and names stay good, and
no analysis of the machine meets an unknown handle: each one that looks every handle up gives
what the graph of the machine gives. -/
theorem every_handle_known (edits : List Edit) :
    let w := run {} edits
    let states := w.machine.states.handles
    let transitions := w.machine.transitions.handles
    w.Closed ∧ w.Named ∧ w.diagnose? = some w.graph.diagnose ∧
      (∀ name, w.template? name = some (TemplateModel.ofGraph name w.graph)) ∧
      w.inputs? = some w.graph.inputs ∧ w.store.outputs? states = some w.graph.outputs ∧
      (∀ name, w.store.named? states name =
        some ((Nodes.named w.graph.nodes name).map Node.id)) ∧
      (∀ source destination mode, w.store.between? transitions source destination mode =
        some ((Edges.between source destination mode w.graph.edges).map Edge.id)) ∧
      w.store.checkReachability? transitions = some (Edges.checkReachability w.graph.edges) := by
  intro w states transitions
  have h : w.Closed := closed_run edits
  have hnodes : w.store.ShowsNodes w.graph.nodes := w.store.showsNodes_nodes _
  have hedges : w.store.ShowsEdges w.graph.edges := w.store.showsEdges_edges _
  have hstates : states = w.graph.nodes.map Node.id := h.states_handles
  have htransitions : transitions = w.graph.edges.map Edge.id := h.transitions_handles
  rw [hstates, htransitions]
  refine ⟨h, named_run edits, h.diagnose?_eq, h.template?_eq, h.inputs?_eq, ?_, ?_,
    hedges.between?_eq, hedges.checkReachability?_eq⟩
  · rw [Store.outputs?, hnodes.nodes?_eq]
    rfl
  · intro name
    rw [Store.named?, hnodes.nodes?_eq, Option.map_some]

end World

end Moore
