import Moore.Diagnosis
import Moore.Proofs.Condition
import Moore.Proofs.Graph

/-
# What a diagnosis says about runs

The findings about conditions come from normal forms, and a run chooses its transitions by
substitution and simplification.  Both are compared with the number of conditions that hold
under an assignment: no overlap is found at a state if that number is never above one, no
gap if it is never zero, and bindings of all inputs enable exactly that many transitions.
-/

namespace Moore

namespace Diagnosis

/-- Some state has two conditions that can hold at once. -/
def HasOverlap (d : Diagnosis) : Prop :=
  ∃ state first second, .overlappingConditions state first second ∈ d.findings

/-- Some state has conditions that leave inputs uncovered. -/
def HasGap (d : Diagnosis) : Prop :=
  ∃ state, .nonExhaustive state ∈ d.findings

end Diagnosis

/-! ### Findings about conditions -/

namespace Graph

variable {g : Graph} {f : Finding} {cs : ConditionSet}

theorem exists_of_mem_duplicateNames (h : f ∈ g.duplicateNames) :
    ∃ name count, f = .duplicateName name count := by
  simp only [duplicateNames, List.mem_filterMap, Option.ite_none_right_eq_some,
    Option.some.injEq] at h
  obtain ⟨⟨name, count⟩, _, _, rfl⟩ := h
  exact ⟨name, count, rfl⟩

theorem exists_of_mem_missingOutputs (h : f ∈ g.missingOutputs) :
    ∃ output states, f = .missingOutput output states := by
  simp only [missingOutputs, List.mem_filterMap, Option.ite_none_right_eq_some,
    Option.some.injEq] at h
  obtain ⟨⟨output, _⟩, _, _, rfl⟩ := h
  exact ⟨output, g.lacking output, rfl⟩

theorem eq_of_mem_aboutStates {finding : List String → Finding} {ns : List Node}
    (h : f ∈ aboutStates finding ns) : f = finding (ns.map Node.name) := by
  unfold aboutStates at h
  split at h
  · cases h
  · exact List.mem_singleton.1 h

theorem eq_of_mem_defaultFindings (h : f ∈ g.defaultFindings) : f = .missingDefault := by
  unfold defaultFindings at h
  split at h
  · exact List.mem_singleton.1 h
  · cases h

theorem exists_of_parallelFinding? {es : List Edge} (h : parallelFinding? es = some f) :
    ∃ source destination conditions, f = .parallelTransitions source destination conditions := by
  cases es with
  | nil => cases h
  | cons e es =>
    cases h
    exact ⟨_, _, _, rfl⟩

/-- Findings about conditions come from the states one by one, and from nowhere else. -/
theorem mem_findings_iff (hf : f.isConditionCheck = true) : f ∈ g.diagnose.findings ↔
    ∃ n ∈ g.nodes, f ∈ leavingFindings n.name (g.leavingConditions n.id) := by
  have hduplicate : f ∉ g.duplicateNames := by
    intro h
    obtain ⟨_, _, rfl⟩ := exists_of_mem_duplicateNames h
    cases hf
  have hmissing : f ∉ g.missingOutputs := by
    intro h
    obtain ⟨_, _, rfl⟩ := exists_of_mem_missingOutputs h
    cases hf
  have hunreachable : f ∉ aboutStates .unreachable (Edges.unreachable g.edges) := by
    intro h
    cases eq_of_mem_aboutStates h
    cases hf
  have hunexitable : f ∉ aboutStates .unexitable (Edges.unexitable g.edges) := by
    intro h
    cases eq_of_mem_aboutStates h
    cases hf
  have hdefault : f ∉ g.defaultFindings := by
    intro h
    cases eq_of_mem_defaultFindings h
    cases hf
  have hparallel : f ∉ (Edges.parallelGroups g.edges).filterMap parallelFinding? := by
    intro h
    obtain ⟨_, _, h⟩ := List.mem_filterMap.1 h
    obtain ⟨_, _, _, rfl⟩ := exists_of_parallelFinding? h
    cases hf
  simp only [diagnose, List.mem_append, hduplicate, hmissing, hunreachable, hunexitable, hdefault,
    hparallel, false_or, List.mem_flatMap]

/-- An overlap is found at a state exactly if two conditions overlap. -/
theorem exists_overlapping_mem_leavingFindings (state : String) :
    (∃ s first second, .overlappingConditions s first second ∈ leavingFindings state cs) ↔
      ∃ p ∈ laterPairs cs, Condition.overlaps p.1 p.2 = true := by
  unfold leavingFindings
  split
  · next hempty =>
    have hnil : cs = [] := List.isEmpty_iff.1 hempty
    simp [hnil, laterPairs]
  · constructor
    · rintro ⟨s, first, second, h⟩
      rcases List.mem_append.1 h with h | h
      · obtain ⟨p, hp, -⟩ := List.mem_map.1 h
        exact ⟨p, (List.mem_filter.1 hp).1, (List.mem_filter.1 hp).2⟩
      · split at h
        · cases h
        · simp at h
    · rintro ⟨p, hp, hover⟩
      refine ⟨state, p.1.text, p.2.text, List.mem_append_left _ ?_⟩
      exact List.mem_map.2 ⟨p, List.mem_filter.2 ⟨hp, hover⟩, rfl⟩

/-- A gap is found at a state exactly if it is left and its conditions are not exhaustive. -/
theorem nonExhaustive_mem_leavingFindings_iff {state s : String} :
    .nonExhaustive s ∈ leavingFindings state cs ↔
      s = state ∧ cs ≠ [] ∧ ¬cs.isExhaustive = true := by
  unfold leavingFindings
  split
  · next hempty => simp [List.isEmpty_iff.1 hempty]
  · next hne =>
    rw [List.isEmpty_iff] at hne
    by_cases hex : cs.isExhaustive = true
    · simp [hex]
    · simp [hex, hne]

/-- No overlap is found exactly if at every state at most one condition holds at a time. -/
theorem not_hasOverlap_iff : ¬g.diagnose.HasOverlap ↔
    ∀ n ∈ g.nodes, ∀ σ, (g.leavingConditions n.id).countP (Expr.eval σ) ≤ 1 := by
  have hiff : g.diagnose.HasOverlap ↔ ∃ n ∈ g.nodes,
      ∃ p ∈ laterPairs (g.leavingConditions n.id), Condition.overlaps p.1 p.2 = true := by
    constructor
    · rintro ⟨s, first, second, h⟩
      obtain ⟨n, hn, h⟩ := (mem_findings_iff rfl).1 h
      exact ⟨n, hn, (exists_overlapping_mem_leavingFindings n.name).1 ⟨s, first, second, h⟩⟩
    · rintro ⟨n, hn, h⟩
      obtain ⟨s, first, second, h⟩ := (exists_overlapping_mem_leavingFindings n.name).2 h
      exact ⟨s, first, second, (mem_findings_iff rfl).2 ⟨n, hn, h⟩⟩
  simp only [hiff, ConditionSet.countP_eval_le_one_iff, not_exists, not_and]

/-- No gap is found exactly if at every state that is left some condition always holds. -/
theorem not_hasGap_iff : ¬g.diagnose.HasGap ↔
    ∀ n ∈ g.nodes, g.leavingConditions n.id ≠ [] →
      ∀ σ, 0 < (g.leavingConditions n.id).countP (Expr.eval σ) := by
  have hiff : g.diagnose.HasGap ↔ ∃ n ∈ g.nodes,
      g.leavingConditions n.id ≠ [] ∧ ¬(g.leavingConditions n.id).isExhaustive = true := by
    constructor
    · rintro ⟨s, h⟩
      obtain ⟨n, hn, h⟩ := (mem_findings_iff rfl).1 h
      exact ⟨n, hn, (nonExhaustive_mem_leavingFindings_iff.1 h).2⟩
    · rintro ⟨n, hn, h⟩
      exact ⟨n.name, (mem_findings_iff rfl).2
        ⟨n, hn, nonExhaustive_mem_leavingFindings_iff.2 ⟨rfl, h⟩⟩⟩
  simp only [hiff, ConditionSet.countP_eval_pos_iff, not_exists, not_and,
    Decidable.not_not]

end Graph

/-! ### Enabled transitions -/

namespace Edges

variable {es : List Edge} {e : Edge}

theorem mem_leaving {id : StateId} : e ∈ leaving id es ↔ e ∈ es ∧ e.source.id = id := by
  simp [leaving, between, eq_comm]

/-- As many edges are enabled as conditions are made true. -/
theorem length_enabled (b : Bindings) (es : List Edge) :
    (enabled b es).length = (conditions es).countP (Condition.isSatisfiedBy · b) := by
  rw [conditions, List.countP_map, enabled, ← List.countP_eq_length_filter]
  rfl

end Edges

theorem Graph.leavingConditions_ne_nil_iff {g : Graph} {id : StateId} :
    g.leavingConditions id ≠ [] ↔ ∃ e ∈ g.edges, e.source.id = id := by
  constructor
  · intro h
    obtain ⟨c, hc⟩ := List.exists_mem_of_ne_nil _ h
    obtain ⟨e, he, -⟩ := List.mem_map.1 hc
    exact ⟨e, Edges.mem_leaving.1 he⟩
  · rintro ⟨e, he⟩
    exact List.ne_nil_of_mem (List.mem_map_of_mem (Edges.mem_leaving.2 he))

theorem Graph.leavingConditions_inputs_subset {g : Graph} {id : StateId} :
    ∀ x ∈ (g.leavingConditions id).inputs, x ∈ g.inputs := by
  intro x hx
  rw [ConditionSet.inputs, Ordered.mem_ofList, List.mem_flatMap] at hx
  obtain ⟨c, hc, hx⟩ := hx
  obtain ⟨e, he, rfl⟩ := List.mem_map.1 hc
  have hmem : e.condition ∈ Edges.conditions g.edges :=
    List.mem_map_of_mem (Edges.mem_leaving.1 he).1
  exact ConditionSet.mem_inputs_of_mem hmem (Expr.mem_inputs.2 hx)

namespace World

/-- Some registered transition leaves the state. -/
def IsLeft (w : World) (s : StateId) : Prop :=
  ∃ id ∈ w.machine.transitions, ∃ t, w.store.transition? id = some t ∧ t.source = s

/-- The transitions that leave a state and that the bindings enable. -/
def enabledFrom (w : World) (s : StateId) (b : Bindings) : TransitionSet where
  handles := (Edges.enabled b (Edges.between (some s) none .and w.graph.edges)).map (·.id)
  sorted := by
    rw [List.pairwise_map]
    exact ((Store.pairwise_edges w.store w.machine.transitions).filter _).filter _

variable {w : World} {s : StateId} {b : Bindings}

theorem size_enabledFrom : (w.enabledFrom s b).size =
    (w.graph.leavingConditions s).countP (Condition.isSatisfiedBy · b) := by
  rw [HandleSet.size, enabledFrom, List.length_map, Graph.leavingConditions,
    ← Edges.length_enabled, Edges.leaving]

/-- Where every registered transition is an edge, a state that is left has conditions to leave
it. -/
theorem IsLeft.leavingConditions_ne_nil (h : w.IsLeft s)
    (hedges : ∀ id ∈ w.machine.transitions, ∃ e ∈ w.graph.edges, e.id = id) :
    w.graph.leavingConditions s ≠ [] := by
  obtain ⟨id, hid, t, ht, hs⟩ := h
  obtain ⟨e, he, rfl⟩ := hedges id hid
  obtain ⟨-, t', ht', hsource, -⟩ := Store.edge?_eq_some_iff.1 (Store.mem_edges.1 he).2
  have heq : t = t' := Option.some.inj (ht.symm.trans ht')
  rw [Graph.leavingConditions_ne_nil_iff]
  refine ⟨e, he, ?_⟩
  rw [(Store.node?_eq_some_iff.1 hsource).1, ← heq, hs]

namespace Closed

/-- The states that are left are those with conditions to leave them. -/
theorem isLeft_iff (h : w.Closed) : w.IsLeft s ↔ w.graph.leavingConditions s ≠ [] := by
  constructor
  · intro hleft
    exact hleft.leavingConditions_ne_nil fun _ => h.exists_edge
  · intro hne
    obtain ⟨e, he, hs⟩ := Graph.leavingConditions_ne_nil_iff.1 hne
    obtain ⟨hid, he⟩ := Store.mem_edges.1 he
    obtain ⟨-, t, ht, hsource, -⟩ := Store.edge?_eq_some_iff.1 he
    exact ⟨e.id, hid, t, ht, (Store.node?_eq_some_iff.1 hsource).1.symm.trans hs⟩

theorem forall_nodes_iff (h : w.Closed) {P : StateId → Prop} :
    (∀ n ∈ w.graph.nodes, P n.id) ↔ ∀ s ∈ w.machine.states, P s := by
  constructor
  · intro hP s hs
    obtain ⟨n, hn, rfl⟩ := h.exists_node hs
    exact hP n hn
  · intro hP n hn
    exact hP n.id (Store.mem_nodes.1 hn).1

/-- Without an overlap at most one transition is enabled at a time. -/
theorem size_enabledFrom_le_one (h : w.Closed) (hover : ¬w.graph.diagnose.HasOverlap)
    (hs : s ∈ w.machine.states) (b : Bindings) : (w.enabledFrom s b).size ≤ 1 := by
  obtain ⟨n, hn, rfl⟩ := h.exists_node hs
  rw [size_enabledFrom]
  calc (w.graph.leavingConditions n.id).countP (Condition.isSatisfiedBy · b)
    _ ≤ (w.graph.leavingConditions n.id).countP (Expr.eval (b.override fun _ => false)) :=
      ConditionSet.countP_isSatisfiedBy_le (NameMap.extendedBy_override b _)
    _ ≤ 1 := Graph.not_hasOverlap_iff.1 hover n hn _

/-- No finding about conditions exactly if under every assignment one condition holds, at
every state that is left. -/
theorem no_condition_finding_iff (h : w.Closed) :
    (¬w.graph.diagnose.HasOverlap ∧ ¬w.graph.diagnose.HasGap) ↔
      ∀ s ∈ w.machine.states, w.IsLeft s →
        ∀ σ, (w.graph.leavingConditions s).countP (Expr.eval σ) = 1 := by
  rw [Graph.not_hasOverlap_iff, Graph.not_hasGap_iff,
    h.forall_nodes_iff (P := fun s => ∀ σ, (w.graph.leavingConditions s).countP (Expr.eval σ) ≤ 1),
    h.forall_nodes_iff (P := fun s => w.graph.leavingConditions s ≠ [] →
      ∀ σ, 0 < (w.graph.leavingConditions s).countP (Expr.eval σ))]
  constructor
  · rintro ⟨hover, hgap⟩ s hs hleft σ
    have hle := hover s hs σ
    have hpos := hgap s hs (h.isLeft_iff.1 hleft) σ
    omega
  · intro hone
    refine ⟨fun s hs σ => ?_, fun s hs hne σ => ?_⟩
    · -- where no transition leaves, no condition can hold
      by_cases hnil : w.graph.leavingConditions s = []
      · simp [hnil]
      · exact Nat.le_of_eq (hone s hs (h.isLeft_iff.2 hnil) σ)
    · rw [hone s hs (h.isLeft_iff.2 hne) σ]
      exact Nat.one_pos

end Closed

/-- A diagnosis tells whether a machine is deterministic and never stuck.  After any run of
edits, it finds neither overlap nor gap exactly if at every registered state that is left
bindings of all inputs enable exactly one transition; and without an overlap no bindings,
however few, enable more than one. -/
theorem diagnosis_decides_determinism (edits : List Edit) :
    let w := run {} edits
    ((¬w.graph.diagnose.HasOverlap ∧ ¬w.graph.diagnose.HasGap) ↔
        ∀ s ∈ w.machine.states, w.IsLeft s →
          ∀ b : Bindings, (∀ x ∈ w.graph.inputs, x ∈ b.names) →
            (w.enabledFrom s b).size = 1) ∧
      (¬w.graph.diagnose.HasOverlap →
        ∀ s ∈ w.machine.states, ∀ b : Bindings, (w.enabledFrom s b).size ≤ 1) := by
  intro w
  have hw : w.Closed := closed_run edits
  have hcount : ∀ s : StateId,
      (∀ b : Bindings, (∀ x ∈ w.graph.inputs, x ∈ b.names) → (w.enabledFrom s b).size = 1) ↔
        ∀ σ, (w.graph.leavingConditions s).countP (Expr.eval σ) = 1 := by
    intro s
    simp only [size_enabledFrom]
    exact ConditionSet.forall_bindings_iff (P := fun k => k = 1)
      Graph.leavingConditions_inputs_subset
  constructor
  · simp only [hcount]
    exact hw.no_condition_finding_iff
  · intro hover s hs b
    exact hw.size_enabledFrom_le_one hover hs b

/-- A switch that `go` turns on and off. -/
def toggle : List Edit :=
  [.newState "off" [], .newState "on" [],
    .newTransition ⟨0⟩ ⟨1⟩ (.built (.var "go")), .newTransition ⟨0⟩ ⟨0⟩ (.built (.not (.var "go"))),
    .newTransition ⟨1⟩ ⟨0⟩ (.built (.var "go")), .newTransition ⟨1⟩ ⟨1⟩ (.built (.not (.var "go"))),
    .addState ⟨0⟩ true, .addState ⟨1⟩ false,
    .addTransition ⟨0⟩, .addTransition ⟨1⟩, .addTransition ⟨2⟩, .addTransition ⟨3⟩]

/-- Nothing is found at the switch, so one transition is enabled when `go` is known. -/
theorem toggle_deterministic :
    (run {} toggle).graph.diagnose.findings = [] ∧
      ((run {} toggle).enabledFrom ⟨0⟩ (NameMap.ofList [("go", true)])).size = 1 ∧
      ((run {} toggle).enabledFrom ⟨1⟩ ∅).size ≤ 1 := by
  have hnone : (run {} toggle).graph.diagnose.findings = [] := by decide
  have hover : ¬(run {} toggle).graph.diagnose.HasOverlap := by
    rintro ⟨_, _, _, h⟩
    rw [hnone] at h
    cases h
  have hgap : ¬(run {} toggle).graph.diagnose.HasGap := by
    rintro ⟨_, h⟩
    rw [hnone] at h
    cases h
  have hleft : (run {} toggle).IsLeft ⟨0⟩ :=
    ⟨⟨0⟩, by decide, ⟨⟨0⟩, ⟨1⟩, .var "go"⟩, by decide, rfl⟩
  obtain ⟨hone, hle⟩ := diagnosis_decides_determinism toggle
  refine ⟨hnone, ?_, hle hover ⟨1⟩ (by decide) ∅⟩
  exact hone.1 ⟨hover, hgap⟩ ⟨0⟩ (by decide) hleft (NameMap.ofList [("go", true)]) (by decide)

end World

end Moore
