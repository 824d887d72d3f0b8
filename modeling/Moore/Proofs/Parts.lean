import Moore.Proofs.Diagnosis
import Moore.Proofs.Lookup

/-
# The whole machine and its states

A diagnosis examines the conditions of all transitions together and those of the transitions
that leave each state.  These are computed apart, from normal forms of different conditions, but
the conditions of a state are some of all conditions, and with fewer conditions no more of them
hold under an assignment.  So conditions stay exclusive when some are left out
(`isExclusive_of_sublist`), and they do not become exhaustive (`isExhaustive_of_subset`).

The two questions about all conditions thus compare differently with those about one state.
Exclusive is the stronger answer for the whole machine: then nothing overlaps at any state.
Exhaustive is the weaker one: without it there is a gap at every state that is left.
-/

namespace Moore

/-! ### Conditions that are left out -/

namespace ConditionSet

variable {cs ds : ConditionSet}

theorem isExclusive_of_sublist (h : cs.Sublist ds) (hds : ds.isExclusive = true) :
    cs.isExclusive = true := by
  rw [isExclusive_iff_countP] at hds ⊢
  intro σ
  exact Nat.le_trans h.countP_le (hds σ)

theorem isExhaustive_of_subset (h : cs ⊆ ds) (hcs : cs.isExhaustive = true) :
    ds.isExhaustive = true := by
  rw [isExhaustive_iff] at hcs ⊢
  intro σ
  obtain ⟨c, hc, hσ⟩ := hcs σ
  exact ⟨c, h hc, hσ⟩

end ConditionSet

/-! ### Parts of a set of transitions -/

/-- A subset has some of the handles, in the same order. -/
theorem HandleSet.handles_sublist {kind : Entity} {part whole : HandleSet kind}
    (h : ∀ id ∈ part, id ∈ whole) : part.handles.Sublist whole.handles := by
  have hfilter : part.handles = whole.handles.filter (· ∈ part.handles) := by
    refine handles_eq_of_mem_iff (whole.sorted.filter _) fun id => ?_
    rw [List.mem_filter, decide_eq_true_eq]
    exact ⟨fun hid => ⟨h id hid, hid⟩, fun hid => hid.2⟩
  rw [hfilter]
  exact List.filter_sublist

theorem Store.conditions_sublist (s : Store) {part whole : TransitionSet}
    (h : ∀ id ∈ part, id ∈ whole) :
    (Edges.conditions (s.edges part)).Sublist (Edges.conditions (s.edges whole)) :=
  ((HandleSet.handles_sublist h).filterMap s.edge?).map Edge.condition

/-! ### States of a machine -/

namespace Graph

variable {g : Graph} {n : Node}

theorem leavingConditions_sublist (g : Graph) (id : StateId) :
    (g.leavingConditions id).Sublist (Edges.conditions g.edges) :=
  List.filter_sublist.map Edge.condition

theorem not_hasOverlap_of_exclusive (h : g.diagnose.exclusive = true) :
    ¬g.diagnose.HasOverlap := by
  rw [not_hasOverlap_iff]
  intro n _
  have hleaving : (g.leavingConditions n.id).isExclusive = true :=
    ConditionSet.isExclusive_of_sublist (g.leavingConditions_sublist n.id) h
  exact ConditionSet.isExclusive_iff_countP.1 hleaving

theorem nonExhaustive_mem_of_not_exhaustive (h : g.diagnose.exhaustive = false) (hn : n ∈ g.nodes)
    (hne : g.leavingConditions n.id ≠ []) : .nonExhaustive n.name ∈ g.diagnose.findings := by
  have hgap : ¬(g.leavingConditions n.id).isExhaustive = true := by
    intro hleaving
    have hwhole : g.diagnose.exhaustive = true :=
      ConditionSet.isExhaustive_of_subset (g.leavingConditions_sublist n.id).subset hleaving
    rw [h] at hwhole
    cases hwhole
  exact (mem_findings_iff rfl).2 ⟨n, hn, nonExhaustive_mem_leavingFindings_iff.2 ⟨rfl, hne, hgap⟩⟩

end Graph

namespace World

/-- What a diagnosis says of all conditions bounds what it finds at the states.  If all are
exclusive, no overlap is found, and if they are not exhaustive, every registered state that a
registered transition leaves has a gap.  The same holds of any transitions and some of them:
leaving transitions out keeps conditions exclusive and does not make them exhaustive. -/
theorem whole_set_bounds_parts (w : World)
    (knownStates : w.store.knowsStates w.machine.states = true)
    (knownTransitions : w.store.knowsTransitions w.machine.transitions = true) :
    (w.graph.diagnose.exclusive = true → ¬w.graph.diagnose.HasOverlap) ∧
      (w.graph.diagnose.exhaustive = false → ∀ id ∈ w.machine.states, w.IsLeft id →
        ∃ state, w.store.state? id = some state ∧
          .nonExhaustive state.name ∈ w.graph.diagnose.findings) ∧
      ∀ (s : Store) (part whole : TransitionSet), (∀ id ∈ part, id ∈ whole) →
        ((Edges.conditions (s.edges whole)).isExclusive = true →
          (Edges.conditions (s.edges part)).isExclusive = true) ∧
        ((Edges.conditions (s.edges whole)).isExhaustive = false →
          (Edges.conditions (s.edges part)).isExhaustive = false) := by
  refine ⟨Graph.not_hasOverlap_of_exclusive, ?_, ?_⟩
  · intro hwhole id hid hleft
    obtain ⟨n, hn, rfl⟩ := Store.exists_node_of_known knownStates id hid
    obtain ⟨-, hstate⟩ := Store.node?_eq_some_iff.1 (Store.mem_nodes.1 hn).2
    have hne : w.graph.leavingConditions n.id ≠ [] :=
      hleft.leavingConditions_ne_nil (Store.exists_edge_of_known knownTransitions)
    exact ⟨n.state, hstate, Graph.nonExhaustive_mem_of_not_exhaustive hwhole hn hne⟩
  · intro s part whole hpart
    have hsublist := s.conditions_sublist hpart
    refine ⟨ConditionSet.isExclusive_of_sublist hsublist, fun hwhole => ?_⟩
    rw [Bool.eq_false_iff] at hwhole ⊢
    exact fun hcovers => hwhole (ConditionSet.isExhaustive_of_subset hsublist.subset hcovers)

/-- The conditions `go & halt` and `!go` exclude each other and leave `go & !halt` out.  Nothing
overlaps, and the two states that are left have a gap each. -/
theorem exclusive_without_coverage :
    let start : Transition := ⟨⟨0⟩, ⟨1⟩, .nary .and [.var "go", .var "halt"]⟩
    let stop : Transition := ⟨⟨1⟩, ⟨2⟩, .not (.var "go")⟩
    let w : World := {
      store := {
        states := [{ name := "idle" }, { name := "run" }, { name := "done" }]
        transitions := [start, stop] }
      machine := {
        states := HandleSet.ofList [⟨0⟩, ⟨1⟩, ⟨2⟩]
        transitions := HandleSet.ofList [⟨0⟩, ⟨1⟩] } }
    let part : TransitionSet := HandleSet.ofList [⟨1⟩]
    ¬w.graph.diagnose.HasOverlap ∧ .nonExhaustive "idle" ∈ w.graph.diagnose.findings ∧
      .nonExhaustive "run" ∈ w.graph.diagnose.findings ∧
      (Edges.conditions (w.store.edges part)).isExclusive = true ∧
      (Edges.conditions (w.store.edges part)).isExhaustive = false := by
  intro start stop w part
  let all : ConditionSet := Edges.conditions (w.store.edges w.machine.transitions)
  have hexclusive : w.graph.diagnose.exclusive = true ∧ all.isExclusive = true := by decide
  have hexhaustive : w.graph.diagnose.exhaustive = false ∧ all.isExhaustive = false := by decide
  have hpart : ∀ id ∈ part.handles, id ∈ w.machine.transitions := by decide
  obtain ⟨hoverlap, hgap, hparts⟩ := whole_set_bounds_parts w (by decide) (by decide)
  obtain ⟨idle, hidle, hidleGap⟩ :=
    hgap hexhaustive.1 ⟨0⟩ (by decide) ⟨⟨0⟩, by decide, start, rfl, rfl⟩
  obtain ⟨run, hrun, hrunGap⟩ :=
    hgap hexhaustive.1 ⟨1⟩ (by decide) ⟨⟨1⟩, by decide, stop, rfl, rfl⟩
  cases hidle
  cases hrun
  obtain ⟨hkeeps, hlacks⟩ := hparts w.store part w.machine.transitions hpart
  exact ⟨hoverlap hexclusive.1, hidleGap, hrunGap, hkeeps hexclusive.2, hlacks hexhaustive.2⟩

end World

end Moore
