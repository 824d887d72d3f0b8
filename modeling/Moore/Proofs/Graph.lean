import Moore.Proofs.World

/-
# The graph of a machine

Reading sets of handles in a store: a node or an edge of the graph is read off exactly one
registered handle, and in a world without bad handles (`World.Closed`) every registered
handle gives one, so that nothing is passed over in silence.
-/

namespace Moore

namespace Store

variable {s : Store}

theorem node?_eq_some_iff {id : StateId} {n : Node} :
    s.node? id = some n ↔ n.id = id ∧ s.state? id = some n.state := by
  simp only [node?, Option.map_eq_some_iff]
  constructor
  · rintro ⟨state, hs, rfl⟩
    exact ⟨rfl, hs⟩
  · rintro ⟨rfl, hs⟩
    exact ⟨n.state, hs, rfl⟩

theorem HasState.exists_node {id : StateId} (h : s.HasState id) : ∃ n, s.node? id = some n := by
  obtain ⟨state, hs⟩ : ∃ state, s.state? id = some state := ⟨_, List.getElem?_eq_getElem h⟩
  exact ⟨⟨id, state⟩, node?_eq_some_iff.2 ⟨rfl, hs⟩⟩

theorem HasTransition.exists_transition {id : TransitionId} (h : s.HasTransition id) :
    ∃ t, s.transition? id = some t :=
  ⟨_, List.getElem?_eq_getElem h⟩

theorem edge?_eq_some_iff {id : TransitionId} {e : Edge} :
    s.edge? id = some e ↔ e.id = id ∧ ∃ t, s.transition? id = some t ∧
      s.node? t.source = some e.source ∧ s.node? t.destination = some e.destination ∧
      e.condition = t.condition := by
  simp only [edge?, Option.bind_eq_bind, Option.bind_eq_some_iff, Option.pure_def,
    Option.some.injEq]
  constructor
  · rintro ⟨t, ht, source, hs, destination, hd, rfl⟩
    exact ⟨rfl, t, ht, hs, hd, rfl⟩
  · rintro ⟨rfl, t, ht, hs, hd, hc⟩
    exact ⟨t, ht, e.source, hs, e.destination, hd, by rw [← hc]⟩

theorem mem_nodes {set : StateSet} {n : Node} :
    n ∈ s.nodes set ↔ n.id ∈ set ∧ s.node? n.id = some n := by
  simp only [nodes, List.mem_filterMap, HandleSet.mem_def]
  constructor
  · rintro ⟨id, hid, hn⟩
    obtain ⟨rfl, -⟩ := node?_eq_some_iff.1 hn
    exact ⟨hid, hn⟩
  · rintro ⟨hid, hn⟩
    exact ⟨n.id, hid, hn⟩

theorem mem_edges {set : TransitionSet} {e : Edge} :
    e ∈ s.edges set ↔ e.id ∈ set ∧ s.edge? e.id = some e := by
  simp only [edges, List.mem_filterMap, HandleSet.mem_def]
  constructor
  · rintro ⟨id, hid, he⟩
    obtain ⟨rfl, -⟩ := edge?_eq_some_iff.1 he
    exact ⟨hid, he⟩
  · rintro ⟨hid, he⟩
    exact ⟨e.id, hid, he⟩

/-- Edges come in the order of their handles, and no two of them share one. -/
theorem pairwise_edges (s : Store) (set : TransitionSet) :
    (s.edges set).Pairwise fun e f => e.id.index < f.id.index := by
  rw [edges, List.pairwise_filterMap]
  refine set.sorted.imp ?_
  intro i j hij e he f hf
  rw [(edge?_eq_some_iff.1 he).1, (edge?_eq_some_iff.1 hf).1]
  exact hij

theorem nodup_ids_edges (s : Store) (set : TransitionSet) : ((s.edges set).map Edge.id).Nodup :=
  Handle.nodup_of_pairwise (List.pairwise_map.2 (s.pairwise_edges set))

end Store

namespace World.Closed

variable {w : World}

/-- Every registered state is a node of the graph. -/
theorem exists_node (h : w.Closed) {id : StateId} (hid : id ∈ w.machine.states) :
    ∃ n ∈ w.graph.nodes, n.id = id := by
  obtain ⟨n, hn⟩ := (h.states id hid).exists_node
  obtain ⟨rfl, -⟩ := Store.node?_eq_some_iff.1 hn
  exact ⟨n, Store.mem_nodes.2 ⟨hid, hn⟩, rfl⟩

/-- Every registered transition is an edge of the graph. -/
theorem exists_edge (h : w.Closed) {id : TransitionId} (hid : id ∈ w.machine.transitions) :
    ∃ e ∈ w.graph.edges, e.id = id := by
  obtain ⟨t, ht⟩ := (h.transitions id hid).exists_transition
  have hmem : t ∈ w.store.transitions := List.mem_of_getElem? ht
  obtain ⟨source, hs⟩ := (h.source t hmem).exists_node
  obtain ⟨destination, hd⟩ := (h.destination t hmem).exists_node
  have he : w.store.edge? id = some ⟨id, source, destination, t.condition⟩ :=
    Store.edge?_eq_some_iff.2 ⟨rfl, t, ht, hs, hd, rfl⟩
  exact ⟨⟨id, source, destination, t.condition⟩, Store.mem_edges.2 ⟨hid, he⟩, rfl⟩

end World.Closed

end Moore
