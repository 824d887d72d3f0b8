import Moore.Proofs.Graph

/-
# Lookups

The graph of a machine passes over handles that the store does not hold.  `Store.nodes?` and
`Store.transitions?` look every handle of a list up and give nothing if one of them is
unknown.  In a world without bad handles (`World.Closed`) the machine registers exactly the
handles of the nodes and edges of its graph, and looking them up gives what the graph shows.
-/

namespace Moore

/-- A set is the strictly increasing list of its members. -/
theorem HandleSet.handles_eq_of_mem_iff {kind : Entity} {set : HandleSet kind}
    {l : List (Handle kind)} (hl : l.Pairwise fun a b => a.index < b.index)
    (h : ∀ id, id ∈ set ↔ id ∈ l) : set.handles = l := by
  refine List.Perm.eq_of_pairwise ?_ set.sorted hl ((List.perm_ext_iff_of_nodup
    (Handle.nodup_of_pairwise set.sorted) (Handle.nodup_of_pairwise hl)).2 h)
  intro a b _ _ hab hba
  omega

/-- Where every lookup finds something that tells where it was, nothing is passed over. -/
theorem map_filterMap_eq_self {α β : Type} {f : α → Option β} {g : β → α} {l : List α}
    (h : ∀ a ∈ l, ∃ b, f a = some b ∧ g b = a) : (l.filterMap f).map g = l := by
  induction l with
  | nil => rfl
  | cons a l ih =>
    obtain ⟨⟨b, hb, hg⟩, htail⟩ := List.forall_mem_cons.1 h
    rw [List.filterMap_cons, hb, List.map_cons, hg, ih htail]

/-- The transition that an edge shows. -/
def Edge.transition (e : Edge) : Transition where
  source := e.source.id
  destination := e.destination.id
  condition := e.condition

namespace Store

/-- The states of some handles, if the store holds all of them. -/
def nodes? (s : Store) (ids : List StateId) : Option (List Node) :=
  ids.mapM s.node?

/-- The transitions of some handles, if the store holds all of them. -/
def transitions? (s : Store) (ids : List TransitionId) : Option (List Transition) :=
  ids.mapM s.transition?

/-- The nodes show states of the store. -/
def ShowsNodes (s : Store) (ns : List Node) : Prop :=
  ∀ n ∈ ns, s.node? n.id = some n

/-- The edges show transitions of the store, with their ends. -/
structure ShowsEdges (s : Store) (es : List Edge) : Prop where
  transitions : ∀ e ∈ es, s.transition? e.id = some e.transition
  sources : s.ShowsNodes (es.map (·.source))
  destinations : s.ShowsNodes (es.map (·.destination))

variable {s : Store} {ns : List Node} {es : List Edge}

theorem ShowsNodes.nodes?_eq (h : s.ShowsNodes ns) : s.nodes? (ns.map Node.id) = some ns :=
  mapM_map_eq_self h

theorem ShowsNodes.subset {ms : List Node} (h : s.ShowsNodes ns) (hsub : ∀ m ∈ ms, m ∈ ns) :
    s.ShowsNodes ms := fun m hm => h m (hsub m hm)

theorem ShowsEdges.transitions?_eq (h : s.ShowsEdges es) :
    s.transitions? (es.map Edge.id) = some (es.map Edge.transition) :=
  mapM_map_eq_pure h.transitions

theorem ShowsEdges.subset {fs : List Edge} (h : s.ShowsEdges es) (hsub : ∀ f ∈ fs, f ∈ es) :
    s.ShowsEdges fs where
  transitions f hf := h.transitions f (hsub f hf)
  sources := h.sources.subset fun _ hn => List.map_subset _ hsub hn
  destinations := h.destinations.subset fun _ hn => List.map_subset _ hsub hn

theorem showsNodes_nodes (s : Store) (set : StateSet) : s.ShowsNodes (s.nodes set) :=
  fun _ hn => (mem_nodes.1 hn).2

theorem showsEdges_edges (s : Store) (set : TransitionSet) : s.ShowsEdges (s.edges set) := by
  have hends : ∀ e ∈ s.edges set, s.transition? e.id = some e.transition ∧
      s.node? e.source.id = some e.source ∧ s.node? e.destination.id = some e.destination := by
    intro e he
    obtain ⟨-, t, ht, hs, hd, hc⟩ := edge?_eq_some_iff.1 (mem_edges.1 he).2
    obtain ⟨hsource, -⟩ := node?_eq_some_iff.1 hs
    obtain ⟨hdestination, -⟩ := node?_eq_some_iff.1 hd
    rw [Edge.transition, hsource, hdestination, hc]
    exact ⟨ht, hs, hd⟩
  refine ⟨fun e he => (hends e he).1, ?_, ?_⟩
  · intro n hn
    obtain ⟨e, he, rfl⟩ := List.mem_map.1 hn
    exact (hends e he).2.1
  · intro n hn
    obtain ⟨e, he, rfl⟩ := List.mem_map.1 hn
    exact (hends e he).2.2

/-- A store that holds every state of a set has a node for each. -/
theorem map_id_nodes {set : StateSet} (known : s.knowsStates set = true) :
    (s.nodes set).map Node.id = set.handles := by
  refine map_filterMap_eq_self fun id hid => ?_
  obtain ⟨n, hn⟩ := Option.isSome_iff_exists.1 (List.all_eq_true.1 known id hid)
  exact ⟨n, hn, (node?_eq_some_iff.1 hn).1⟩

/-- A store that holds every transition of a set, with its ends, has an edge for each. -/
theorem map_id_edges {set : TransitionSet} (known : s.knowsTransitions set = true) :
    (s.edges set).map Edge.id = set.handles := by
  refine map_filterMap_eq_self fun id hid => ?_
  obtain ⟨e, he⟩ := Option.isSome_iff_exists.1 (List.all_eq_true.1 known id hid)
  exact ⟨e, he, (edge?_eq_some_iff.1 he).1⟩

theorem exists_node_of_known {set : StateSet} (known : s.knowsStates set = true) :
    ∀ id ∈ set, ∃ n ∈ s.nodes set, n.id = id := by
  intro id hid
  rw [HandleSet.mem_def, ← map_id_nodes known] at hid
  exact List.mem_map.1 hid

theorem exists_edge_of_known {set : TransitionSet} (known : s.knowsTransitions set = true) :
    ∀ id ∈ set, ∃ e ∈ s.edges set, e.id = id := by
  intro id hid
  rw [HandleSet.mem_def, ← map_id_edges known] at hid
  exact List.mem_map.1 hid

theorem nodes_map_state (s : Store) (set : StateSet) :
    (s.nodes set).map Node.state = set.handles.filterMap s.state? := by
  unfold nodes
  rw [List.map_filterMap]
  refine List.filterMap_congr fun id _ => ?_
  rw [node?, Option.map_map]
  exact Option.map_id' (x := s.state? id)

end Store

namespace World.Closed

variable {w : World}

theorem states_handles (h : w.Closed) : w.machine.states.handles = w.graph.nodes.map Node.id := by
  refine (map_filterMap_eq_self fun id hid => ?_).symm
  obtain ⟨n, hn⟩ := (h.states id hid).exists_node
  exact ⟨n, hn, (Store.node?_eq_some_iff.1 hn).1⟩

theorem transitions_handles (h : w.Closed) :
    w.machine.transitions.handles = w.graph.edges.map Edge.id := by
  refine (map_filterMap_eq_self fun id hid => ?_).symm
  obtain ⟨e, he, rfl⟩ := h.exists_edge hid
  exact ⟨e, (Store.mem_edges.1 he).2, rfl⟩

theorem edges_map_transition (h : w.Closed) : w.graph.edges.map Edge.transition =
    w.machine.transitions.handles.filterMap w.store.transition? := by
  rw [h.transitions_handles, List.filterMap_map, ← List.filterMap_eq_map]
  exact List.filterMap_congr fun e he => ((w.store.showsEdges_edges _).transitions e he).symm

end World.Closed

end Moore
