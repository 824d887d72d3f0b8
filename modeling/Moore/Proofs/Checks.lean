import Mathlib.Data.List.Nodup
import Moore.Proofs.Diagnosis
import Moore.Proofs.Lookup
import Moore.Proofs.NameMap

/-
# Checks that stop and checks that go on

`Nodes.validate` and `Edges.checkReachability` stop at the first fault, and a diagnosis lists
all faults.  They go by the same rules: the fault that a check stops at is the first finding of
its kind.

The findings of one kind stand together in a diagnosis and are told apart by their codes
(`Diagnosis.ofCode`).  The error about an output counts the states that have it and the finding
lists those that lack it, so together they are all states (`count_add_length_lacking`).
-/

namespace Moore

/-- The findings of a kind, in order. -/
def Diagnosis.ofCode (d : Diagnosis) (code : String) : List Finding :=
  d.findings.filter (·.code = code)

/-! ### Findings by kind -/

namespace Graph

variable {g : Graph} {f : Finding} {code other : String}

theorem filter_code_of_eq {l : List Finding} (h : ∀ f ∈ l, f.code = code) :
    l.filter (·.code = other) = if code = other then l else [] := by
  by_cases hcode : code = other
  · rw [if_pos hcode, List.filter_eq_self]
    intro f hf
    simp [h f hf, hcode]
  · rw [if_neg hcode, List.filter_eq_nil_iff]
    intro f hf
    simp [h f hf, hcode]

theorem code_of_mem_leavingFindings {state : String} {cs : ConditionSet}
    (h : f ∈ leavingFindings state cs) :
    f.code = "OVERLAPPING_CONDITIONS" ∨ f.code = "NON_EXHAUSTIVE" := by
  unfold leavingFindings at h
  split at h
  · cases h
  · rcases List.mem_append.1 h with h | h
    · obtain ⟨p, -, rfl⟩ := List.mem_map.1 h
      exact .inl rfl
    · split at h
      · cases h
      · rw [List.mem_singleton.1 h]
        exact .inr rfl

/-- The findings of a kind that is not about conditions come from one part of the diagnosis. -/
theorem ofCode_diagnose (hcode : code ≠ "OVERLAPPING_CONDITIONS" ∧ code ≠ "NON_EXHAUSTIVE") :
    g.diagnose.ofCode code =
      (if "DUPLICATE_NAME" = code then g.duplicateNames else []) ++
      (if "MISSING_OUTPUT" = code then g.missingOutputs else []) ++
      (if "UNREACHABLE_STATE" = code then
        aboutStates .unreachable (Edges.unreachable g.edges) else []) ++
      (if "UNEXITABLE_STATE" = code then
        aboutStates .unexitable (Edges.unexitable g.edges) else []) ++
      (if "MISSING_DEFAULT" = code then g.defaultFindings else []) ++
      if "PARALLEL_TRANSITIONS" = code then
        (Edges.parallelGroups g.edges).filterMap parallelFinding? else [] := by
  have hduplicate : ∀ f ∈ g.duplicateNames, f.code = "DUPLICATE_NAME" := by
    intro f hf
    obtain ⟨_, _, rfl⟩ := exists_of_mem_duplicateNames hf
    rfl
  have hmissing : ∀ f ∈ g.missingOutputs, f.code = "MISSING_OUTPUT" := by
    intro f hf
    obtain ⟨_, _, rfl⟩ := exists_of_mem_missingOutputs hf
    rfl
  have hunreachable : ∀ f ∈ aboutStates .unreachable (Edges.unreachable g.edges),
      f.code = "UNREACHABLE_STATE" := by
    intro f hf
    rw [eq_of_mem_aboutStates hf]
    rfl
  have hunexitable : ∀ f ∈ aboutStates .unexitable (Edges.unexitable g.edges),
      f.code = "UNEXITABLE_STATE" := by
    intro f hf
    rw [eq_of_mem_aboutStates hf]
    rfl
  have hdefault : ∀ f ∈ g.defaultFindings, f.code = "MISSING_DEFAULT" := by
    intro f hf
    rw [eq_of_mem_defaultFindings hf]
    rfl
  have hparallel : ∀ f ∈ (Edges.parallelGroups g.edges).filterMap parallelFinding?,
      f.code = "PARALLEL_TRANSITIONS" := by
    intro f hf
    obtain ⟨_, -, hf⟩ := List.mem_filterMap.1 hf
    obtain ⟨_, _, _, rfl⟩ := exists_of_parallelFinding? hf
    rfl
  have hleaving : (g.nodes.flatMap fun n =>
      leavingFindings n.name (g.leavingConditions n.id)).filter (·.code = code) = [] := by
    rw [List.filter_eq_nil_iff]
    intro f hf
    obtain ⟨n, -, hf⟩ := List.mem_flatMap.1 hf
    rcases code_of_mem_leavingFindings hf with h | h
    · simpa [h] using hcode.1.symm
    · simpa [h] using hcode.2.symm
  simp only [Diagnosis.ofCode, diagnose, List.filter_append, filter_code_of_eq hduplicate,
    filter_code_of_eq hmissing, filter_code_of_eq hunreachable, filter_code_of_eq hunexitable,
    filter_code_of_eq hdefault, filter_code_of_eq hparallel, hleaving, List.append_nil]

theorem ofCode_duplicateName : g.diagnose.ofCode "DUPLICATE_NAME" = g.duplicateNames := by
  simp [ofCode_diagnose]

theorem ofCode_missingOutput : g.diagnose.ofCode "MISSING_OUTPUT" = g.missingOutputs := by
  simp [ofCode_diagnose]

theorem ofCode_unreachable : g.diagnose.ofCode "UNREACHABLE_STATE" =
    aboutStates .unreachable (Edges.unreachable g.edges) := by
  simp [ofCode_diagnose]

theorem ofCode_unexitable : g.diagnose.ofCode "UNEXITABLE_STATE" =
    aboutStates .unexitable (Edges.unexitable g.edges) := by
  simp [ofCode_diagnose]

theorem ofCode_parallelTransitions : g.diagnose.ofCode "PARALLEL_TRANSITIONS" =
    (Edges.parallelGroups g.edges).filterMap parallelFinding? := by
  simp [ofCode_diagnose]

end Graph

/-! ### States -/

theorem head?_filterMap_ite {α β : Type} (p : α → Prop) [DecidablePred p] (f : α → β)
    (l : List α) : (l.filterMap fun a => if p a then some (f a) else none).head? =
      (l.find? p).map f := by
  induction l with
  | nil => rfl
  | cons a l ih =>
    by_cases h : p a
    · simp [h]
    · simp [h, ih]

/-- The name of an output occurs once for each state that defines it. -/
theorem count_outputNames (ns : List Node) (output : String) :
    (ns.flatMap (·.state.outputs.names)).count output =
      ns.countP fun n => (n.state.outputs.get? output).isSome := by
  induction ns with
  | nil => rfl
  | cons n ns ih =>
    rw [List.flatMap_cons, List.count_append, List.countP_cons, ih, Nat.add_comm]
    congr 1
    have hmem : output ∈ n.state.outputs.names ↔ (n.state.outputs.get? output).isSome := by
      rw [NameMap.mem_names, Option.isSome_iff_exists]
    by_cases h : (n.state.outputs.get? output).isSome = true
    · rw [if_pos h]
      exact List.count_eq_one_of_mem n.state.outputs.nodup_names (hmem.2 h)
    · rw [if_neg h]
      exact List.count_eq_zero_of_not_mem fun hin => h (hmem.1 hin)

namespace Graph

variable {g : Graph}

/-- A state has an output or lacks it. -/
theorem count_add_length_lacking {output : String} {count : Nat}
    (h : (output, count) ∈ g.outputs) : count + (g.lacking output).length = g.nodes.length := by
  obtain ⟨s, -, heq⟩ := List.mem_map.1 h
  obtain ⟨rfl, rfl⟩ := Prod.mk.inj heq
  rw [count_outputNames, lacking, List.length_map, ← List.countP_eq_length_filter,
    List.length_eq_countP_add_countP fun n : Node => (n.state.outputs.get? s).isSome]
  congr 1
  exact List.countP_congr fun n _ => by simp

theorem duplicateNames_head? : g.duplicateNames.head? =
    ((Nodes.names g.nodes).find? (1 < ·.2)).map fun p => .duplicateName p.1 p.2 :=
  head?_filterMap_ite _ _ _

theorem missingOutputs_head? : g.missingOutputs.head? =
    ((Nodes.outputs g.nodes).find? (·.2 ≠ g.nodes.length)).map fun p =>
      .missingOutput p.1 (g.lacking p.1) :=
  head?_filterMap_ite _ _ _

/-- The error about a name quotes the finding about it. -/
theorem message_duplicateName (name : String) (count : Nat) :
    (ModelError.duplicateName name count).message =
      "invalid states: " ++ (Finding.duplicateName name count).message := by
  have hquoted : toString "invalid states: state name '" =
      "invalid states: " ++ toString "state name '" := by decide
  unfold ModelError.message Finding.message
  simp only [hquoted, ← String.append_assoc]

theorem find?_names_eq_none (h : g.duplicateNames = []) :
    (Nodes.names g.nodes).find? (1 < ·.2) = none := by
  rw [← Option.map_eq_none_iff, ← duplicateNames_head?, h]
  rfl

/-- The check of states stops at the first name that several states bear. -/
theorem validate_of_duplicateNames (h : g.duplicateNames.head? = some f) :
    ∃ name count, f = .duplicateName name count ∧
      Nodes.validate g.nodes = .error (.duplicateName name count) := by
  rw [duplicateNames_head?, Option.map_eq_some_iff] at h
  obtain ⟨⟨name, count⟩, hfind, rfl⟩ := h
  refine ⟨name, count, rfl, ?_⟩
  rw [Nodes.validate, hfind]

/-- Where all names differ, it stops at the first output that some states lack. -/
theorem validate_of_missingOutputs (hnames : g.duplicateNames = [])
    (h : g.missingOutputs.head? = some f) :
    ∃ output, f = .missingOutput output (g.lacking output) ∧
      (g.lacking output).length ≤ g.nodes.length ∧
      Nodes.validate g.nodes = .error (.unevenOutput output
        (g.nodes.length - (g.lacking output).length) g.nodes.length) := by
  rw [missingOutputs_head?, Option.map_eq_some_iff] at h
  obtain ⟨⟨output, count⟩, hfind, rfl⟩ := h
  have hsum : count + (g.lacking output).length = g.nodes.length :=
    count_add_length_lacking (List.mem_of_find?_eq_some hfind)
  refine ⟨output, rfl, Nat.le_of_add_left_le (Nat.le_of_eq hsum), ?_⟩
  rw [← Nat.eq_sub_of_add_eq hsum, Nodes.validate, find?_names_eq_none hnames, hfind]

/-- It passes where there is nothing to stop at. -/
theorem validate_of_findings_nil (hnames : g.duplicateNames = [])
    (houtputs : g.missingOutputs = []) : Nodes.validate g.nodes = .ok () := by
  have hnone : (Nodes.outputs g.nodes).find? (·.2 ≠ g.nodes.length) = none := by
    rw [← Option.map_eq_none_iff, ← missingOutputs_head?, houtputs]
    rfl
  rw [Nodes.validate, find?_names_eq_none hnames, hnone]

/-- Whether the check of states fails is whether there is a finding about names or outputs. -/
theorem exists_validate_eq_error_iff : (∃ err, Nodes.validate g.nodes = .error err) ↔
    g.duplicateNames ≠ [] ∨ g.missingOutputs ≠ [] := by
  cases hnames : g.duplicateNames with
  | cons f fs =>
    obtain ⟨name, count, -, herr⟩ := validate_of_duplicateNames (f := f) (by rw [hnames]; rfl)
    exact iff_of_true ⟨_, herr⟩ (.inl (List.cons_ne_nil f fs))
  | nil =>
    cases houtputs : g.missingOutputs with
    | cons f fs =>
      obtain ⟨output, -, -, herr⟩ :=
        validate_of_missingOutputs (f := f) hnames (by rw [houtputs]; rfl)
      exact iff_of_true ⟨_, herr⟩ (.inr (List.cons_ne_nil f fs))
    | nil =>
      rw [validate_of_findings_nil hnames houtputs]
      simp

end Graph

/-! ### Transitions -/

namespace Graph

variable {finding : List String → Finding} {ns : List Node} {f : Finding}

theorem aboutStates_eq_nil_iff : aboutStates finding ns = [] ↔ ns = [] := by
  unfold aboutStates
  cases ns with
  | nil => simp
  | cons n ns => simp

theorem mem_aboutStates_iff :
    f ∈ aboutStates finding ns ↔ ns ≠ [] ∧ f = finding (ns.map Node.name) := by
  unfold aboutStates
  cases ns with
  | nil => simp
  | cons n ns => simp

/-- States that are never entered, or never left, are reported together. -/
theorem length_aboutStates_le_one : (aboutStates finding ns).length ≤ 1 := by
  unfold aboutStates
  split
  · exact Nat.zero_le 1
  · exact Nat.le_refl 1

end Graph

namespace Edges

variable {es : List Edge} {l : List String}

theorem checkReachability_eq_unreachable_iff : checkReachability es = .error (.unreachable l) ↔
    unreachable es ≠ [] ∧ l = (unreachable es).map Node.name := by
  unfold checkReachability
  cases unreachable es with
  | nil =>
    cases unexitable es with
    | nil => simp
    | cons n ns => simp
  | cons n ns => simp [eq_comm]

theorem checkReachability_eq_unexitable_iff : checkReachability es = .error (.unexitable l) ↔
    unreachable es = [] ∧ unexitable es ≠ [] ∧ l = (unexitable es).map Node.name := by
  unfold checkReachability
  cases unreachable es with
  | nil =>
    cases unexitable es with
    | nil => simp
    | cons n ns => simp [eq_comm]
  | cons n ns => simp

theorem checkReachability_eq_ok_iff : checkReachability es = .ok () ↔
    unreachable es = [] ∧ unexitable es = [] := by
  unfold checkReachability
  cases unreachable es with
  | nil =>
    cases unexitable es with
    | nil => simp
    | cons n ns => simp
  | cons n ns => simp

end Edges

/-! ### Agreement -/

namespace Graph

variable {g : Graph} {l : List String}

theorem mem_findings_iff_ofCode {f : Finding} :
    f ∈ g.diagnose.findings ↔ f ∈ g.diagnose.ofCode f.code := by
  simp [Diagnosis.ofCode]

theorem unreachable_mem_findings_iff : .unreachable l ∈ g.diagnose.findings ↔
    Edges.unreachable g.edges ≠ [] ∧ l = (Edges.unreachable g.edges).map Node.name := by
  rw [mem_findings_iff_ofCode]
  show Finding.unreachable l ∈ g.diagnose.ofCode "UNREACHABLE_STATE" ↔ _
  rw [ofCode_unreachable, mem_aboutStates_iff, Finding.unreachable.injEq]

theorem unexitable_mem_findings_iff : .unexitable l ∈ g.diagnose.findings ↔
    Edges.unexitable g.edges ≠ [] ∧ l = (Edges.unexitable g.edges).map Node.name := by
  rw [mem_findings_iff_ofCode]
  show Finding.unexitable l ∈ g.diagnose.ofCode "UNEXITABLE_STATE" ↔ _
  rw [ofCode_unexitable, mem_aboutStates_iff, Finding.unexitable.injEq]

end Graph

namespace World

variable {w : World}

/-- A world that holds the registered states has a node for each. -/
theorem length_nodes (known : w.store.knowsStates w.machine.states = true) :
    w.graph.nodes.length = w.machine.states.size := by
  rw [HandleSet.size, ← Store.map_id_nodes known, List.length_map, graph]

/-- The checks that stop at the first fault say what a diagnosis says first about names and
outputs, and about states that are only left or only entered. -/
theorem checks_agree_with_diagnosis (known : w.store.knowsStates w.machine.states = true) :
    let checked := Nodes.validate w.graph.nodes
    let reached := Edges.checkReachability w.graph.edges
    let d := w.graph.diagnose
    let members := w.machine.states.size
    ((∃ err, checked = .error err) ↔
        d.ofCode "DUPLICATE_NAME" ≠ [] ∨ d.ofCode "MISSING_OUTPUT" ≠ []) ∧
      (∀ f, (d.ofCode "DUPLICATE_NAME").head? = some f →
        ∃ err, checked = .error err ∧ err.message = "invalid states: " ++ f.message) ∧
      (d.ofCode "DUPLICATE_NAME" = [] → ∀ f, (d.ofCode "MISSING_OUTPUT").head? = some f →
        ∃ output states, f = .missingOutput output states ∧ states.length ≤ members ∧
          checked = .error (.unevenOutput output (members - states.length) members)) ∧
      (∀ l, reached = .error (.unreachable l) ↔ .unreachable l ∈ d.findings) ∧
      (∀ l, reached = .error (.unexitable l) ↔
        d.ofCode "UNREACHABLE_STATE" = [] ∧ .unexitable l ∈ d.findings) ∧
      (reached = .ok () ↔
        d.ofCode "UNREACHABLE_STATE" = [] ∧ d.ofCode "UNEXITABLE_STATE" = []) ∧
      (d.ofCode "UNREACHABLE_STATE").length ≤ 1 ∧ (d.ofCode "UNEXITABLE_STATE").length ≤ 1 := by
  intro checked reached d members
  have hmembers : w.graph.nodes.length = members := length_nodes known
  simp only [d, Graph.ofCode_duplicateName, Graph.ofCode_missingOutput, Graph.ofCode_unreachable,
    Graph.ofCode_unexitable, Graph.aboutStates_eq_nil_iff, Graph.unreachable_mem_findings_iff,
    Graph.unexitable_mem_findings_iff]
  refine ⟨Graph.exists_validate_eq_error_iff, fun f hf => ?_, fun hnames f hf => ?_,
    fun l => Edges.checkReachability_eq_unreachable_iff,
    fun l => Edges.checkReachability_eq_unexitable_iff, Edges.checkReachability_eq_ok_iff,
    Graph.length_aboutStates_le_one, Graph.length_aboutStates_le_one⟩
  · obtain ⟨name, count, rfl, herr⟩ := Graph.validate_of_duplicateNames hf
    exact ⟨_, herr, Graph.message_duplicateName name count⟩
  · obtain ⟨output, rfl, hle, herr⟩ := Graph.validate_of_missingOutputs hnames hf
    rw [hmembers] at hle herr
    exact ⟨output, _, rfl, hle, herr⟩

/-- A machine that works once and stays there is faulty in both respects. -/
theorem idle_never_entered :
    let w := run {} [.newState "idle" [("busy", .bool false)], .newState "work" [],
      .newTransition ⟨0⟩ ⟨1⟩ (.text "go"), .addState ⟨0⟩ true, .addState ⟨1⟩ false,
      .addTransition ⟨0⟩]
    w.store.knowsStates w.machine.states = true ∧
      Nodes.validate w.graph.nodes = .error (.unevenOutput "busy" 1 2) ∧
      Edges.checkReachability w.graph.edges = .error (.unreachable ["idle"]) := by
  intro w
  have known : w.store.knowsStates w.machine.states = true := by decide
  have hnames : w.graph.diagnose.ofCode "DUPLICATE_NAME" = [] := by decide
  have houtputs : (w.graph.diagnose.ofCode "MISSING_OUTPUT").head? =
      some (.missingOutput "busy" ["work"]) := by decide
  have hidle : .unreachable ["idle"] ∈ w.graph.diagnose.findings := by decide
  obtain ⟨-, -, huneven, hunreachable, -⟩ := checks_agree_with_diagnosis known
  obtain ⟨output, states, heq, -, herr⟩ := huneven hnames _ houtputs
  cases heq
  exact ⟨known, herr, (hunreachable ["idle"]).2 hidle⟩

end World

end Moore
