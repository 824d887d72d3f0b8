import Moore.Proofs.Access
import Moore.Proofs.Diagnosis
import Moore.Proofs.Template
import Moore.Text.Paint

/-
# Texts of one line

A report gives each finding a line of its own, which is only so if no finding breaks its line
(`OneLine`).  What a finding quotes are names, which are identifiers, and canonical texts of
conditions, whose variables are identifiers (`World.Spelled`).  A document that defines a
machine spells it so.
-/

namespace Moore

/-- The text has no line break. -/
def OneLine (s : String) : Prop :=
  '\n' ∉ s.toList

instance (s : String) : Decidable (OneLine s) :=
  inferInstanceAs (Decidable ('\n' ∉ s.toList))

theorem oneLine_append {s t : String} : OneLine (s ++ t) ↔ OneLine s ∧ OneLine t := by
  unfold OneLine
  rw [String.toList_append, List.mem_append, not_or]

theorem OneLine.intercalate {sep : String} {l : List String} (hsep : OneLine sep)
    (h : ∀ s ∈ l, OneLine s) : OneLine (sep.intercalate l) := by
  unfold OneLine
  rw [String.toList_intercalate]
  induction l with
  | nil => exact List.not_mem_nil
  | cons s l ih =>
    obtain ⟨hs, hl⟩ := List.forall_mem_cons.1 h
    cases l with
    | nil => simpa [OneLine] using hs
    | cons t l =>
      rw [List.map_cons, List.map_cons, List.intercalate_cons_cons, List.mem_append,
        List.mem_append, not_or, not_or]
      exact ⟨⟨hs, hsep⟩, ih hl⟩

theorem OneLine.natural (n : Nat) : OneLine (toString n) := by
  intro hmem
  have hdigits : '\n' ∈ Nat.toDigits 10 n := Nat.toList_repr ▸ hmem
  exact absurd (Nat.isDigit_of_mem_toDigits (by decide) (by decide) hdigits) (by decide)

theorem OneLine.of_isIdentifier {s : String} (h : isIdentifier s = true) : OneLine s := by
  intro hmem
  exact absurd ((isIdentifier_iff.1 h).1.forall_isWordChar '\n' hmem) (by decide)

theorem newline_not_mem_resume {start cs : List Char} (hstart : '\n' ∉ start) (hcs : '\n' ∉ cs) :
    '\n' ∉ Text.resume start cs := by
  fun_induction Text.resume start cs with
  | case1 cs ih =>
    simp only [List.mem_cons, not_or] at hcs
    simp only [List.mem_append, not_or]
    exact ⟨⟨by decide, hstart⟩, ih hcs.2.2.2.2⟩
  | case2 c cs _ ih =>
    obtain ⟨hc, hcs⟩ := not_or.1 (List.mem_cons.not.1 hcs)
    exact List.mem_cons.not.2 (not_or.2 ⟨hc, ih hcs⟩)
  | case3 => exact List.not_mem_nil

/-- Painting adds no line breaks. -/
theorem OneLine.paint {colors : Bool} {p : Text.Paint} {s : String} (h : OneLine s) :
    OneLine (Text.paint colors p s) := by
  cases colors with
  | false => exact h
  | true =>
    have hstart : '\n' ∉ p.start := by
      cases p <;> decide
    show '\n' ∉ (String.ofList _).toList
    simp only [String.toList_ofList, List.mem_append, not_or]
    exact ⟨⟨hstart, newline_not_mem_resume hstart h⟩, by decide⟩

/-! ### Conditions -/

namespace Expr

theorem newline_not_mem_charsAt {p : Phrase} {e : Expr} (h : '\n' ∉ e.chars) :
    '\n' ∉ charsAt p e := by
  unfold charsAt
  split
  · simpa [parenthesised] using h
  · exact h

theorem newline_not_mem_charsAll {op : Connective} {es : List Expr}
    (h : ∀ e ∈ es, '\n' ∉ e.chars) : '\n' ∉ charsAll op es := by
  induction es with
  | nil => exact List.not_mem_nil
  | cons e es ih =>
    obtain ⟨he, hes⟩ := List.forall_mem_cons.1 h
    have hseparator : '\n' ∉ separator op := by
      cases op <;> decide
    cases es with
    | nil =>
      rw [charsAll_singleton]
      exact newline_not_mem_charsAt he
    | cons f es =>
      rw [charsAll_cons_cons, List.mem_append, List.mem_append, not_or, not_or]
      exact ⟨newline_not_mem_charsAt he, hseparator, ih hes⟩

/-- A condition is written on one line if its variables are. -/
theorem oneLine_text {e : Expr} (h : ∀ x ∈ e.occurrences, isIdentifier x = true) :
    OneLine e.text := by
  have hchars : '\n' ∉ e.chars := by
    induction e with
    | lit b => cases b <;> decide
    | var x => exact OneLine.of_isIdentifier (h x (by simp))
    | not e ih =>
      rw [chars_not, List.mem_cons, not_or]
      exact ⟨by decide, newline_not_mem_charsAt (ih (by simpa using h))⟩
    | nary op es ih =>
      rw [chars]
      refine newline_not_mem_charsAll fun e he => ih e he fun x hx => h x ?_
      exact mem_occurrences_nary.2 ⟨e, he, hx⟩
  unfold OneLine text
  rwa [String.toList_ofList]

end Expr

/-! ### Findings -/

namespace Finding

/-- What the message of a finding quotes. -/
def quoted : Finding → List String
  | duplicateName name _ => [name]
  | missingOutput output states => output :: states
  | unreachable states | unexitable states => states
  | missingDefault => []
  | parallelTransitions source destination conditions => source :: destination :: conditions
  | overlappingConditions state first second => [state, first, second]
  | nonExhaustive state => [state]

theorem oneLine_message {f : Finding} (h : ∀ s ∈ f.quoted, OneLine s) : OneLine f.message := by
  have hlisted : ∀ l : List String, (∀ s ∈ l, OneLine s) → OneLine (ModelError.listed l) :=
    fun l hl => OneLine.intercalate (by decide) hl
  cases f with
  | duplicateName name count =>
    unfold message
    simp only [oneLine_append]
    exact ⟨⟨⟨⟨by decide, h name (by simp [quoted])⟩, by decide⟩, .natural count⟩, by decide⟩
  | missingOutput output states =>
    obtain ⟨houtput, hstates⟩ := List.forall_mem_cons.1 h
    unfold message
    simp only [oneLine_append]
    exact ⟨⟨⟨by decide, houtput⟩, by decide⟩, hlisted states hstates⟩
  | unreachable states | unexitable states =>
    unfold message
    simp only [oneLine_append]
    exact ⟨⟨by decide, hlisted states h⟩, by decide⟩
  | missingDefault =>
    show OneLine "no default state"
    decide
  | parallelTransitions source destination conditions =>
    obtain ⟨hsource, h⟩ := List.forall_mem_cons.1 h
    obtain ⟨hdestination, hconditions⟩ := List.forall_mem_cons.1 h
    unfold message
    simp only [oneLine_append]
    exact ⟨⟨⟨⟨⟨⟨⟨.natural _, by decide⟩, hsource⟩, by decide⟩, hdestination⟩, by decide⟩,
      OneLine.intercalate (by decide) hconditions⟩, by decide⟩
  | overlappingConditions state first second =>
    unfold message
    simp only [oneLine_append]
    exact ⟨⟨⟨⟨⟨⟨by decide, h state (by simp [quoted])⟩, by decide⟩, h first (by simp [quoted])⟩,
      by decide⟩, h second (by simp [quoted])⟩, by decide⟩
  | nonExhaustive state =>
    unfold message
    simp only [oneLine_append]
    exact ⟨⟨by decide, h state (by simp [quoted])⟩, by decide⟩

end Finding

/-! ### Diagnoses -/

/-- The names and conditions of a graph are texts of one line. -/
structure Graph.Plain (g : Graph) : Prop where
  names : ∀ n ∈ g.nodes, OneLine n.name
  outputs : ∀ n ∈ g.nodes, ∀ output ∈ n.state.outputs.names, OneLine output
  sources : ∀ e ∈ g.edges, OneLine e.source.name
  destinations : ∀ e ∈ g.edges, OneLine e.destination.name
  conditions : ∀ e ∈ g.edges, OneLine e.condition.text

theorem mem_of_mem_tally {l : List String} {p : String × Nat} (h : p ∈ tally l) : p.1 ∈ l := by
  obtain ⟨s, hs, rfl⟩ := List.mem_map.1 h
  exact Ordered.mem_ofList.1 hs

namespace Graph.Plain

variable {g : Graph} {f : Finding}

theorem duplicateNames (h : g.Plain) (hf : f ∈ g.duplicateNames) :
    ∀ s ∈ f.quoted, OneLine s := by
  simp only [Graph.duplicateNames, List.mem_filterMap, Option.ite_none_right_eq_some,
    Option.some.injEq] at hf
  obtain ⟨⟨name, count⟩, hname, -, rfl⟩ := hf
  obtain ⟨n, hn, rfl⟩ := List.mem_map.1 (mem_of_mem_tally hname)
  exact List.forall_mem_singleton.2 (h.names n hn)

theorem missingOutputs (h : g.Plain) (hf : f ∈ g.missingOutputs) :
    ∀ s ∈ f.quoted, OneLine s := by
  simp only [Graph.missingOutputs, List.mem_filterMap, Option.ite_none_right_eq_some,
    Option.some.injEq] at hf
  obtain ⟨⟨output, count⟩, houtput, -, rfl⟩ := hf
  obtain ⟨n, hn, hdefined⟩ := List.mem_flatMap.1 (mem_of_mem_tally houtput)
  refine List.forall_mem_cons.2 ⟨h.outputs n hn output hdefined, fun s hs => ?_⟩
  obtain ⟨m, hm, rfl⟩ := List.mem_map.1 hs
  exact h.names m (List.mem_filter.1 hm).1

theorem difference {ms ns : List Node} (h : ∀ m ∈ ms, OneLine m.name) :
    ∀ s ∈ (Nodes.difference (Nodes.distinct ms) ns).map Node.name, OneLine s := by
  intro s hs
  obtain ⟨m, hm, rfl⟩ := List.mem_map.1 hs
  exact h m (Nodes.mem_of_mem_distinct (List.mem_filter.1 hm).1)

theorem unreachable (h : g.Plain) :
    ∀ s ∈ (Edges.unreachable g.edges).map Node.name, OneLine s :=
  difference (List.forall_mem_map.2 h.sources)

theorem unexitable (h : g.Plain) :
    ∀ s ∈ (Edges.unexitable g.edges).map Node.name, OneLine s :=
  difference (List.forall_mem_map.2 h.destinations)

theorem parallelFinding? (h : g.Plain) {es : List Edge} (hes : ∀ e ∈ es, e ∈ g.edges)
    (hf : Graph.parallelFinding? es = some f) : ∀ s ∈ f.quoted, OneLine s := by
  cases es with
  | nil => cases hf
  | cons e es =>
    cases hf
    have he : e ∈ g.edges := hes e List.mem_cons_self
    refine List.forall_mem_cons.2 ⟨h.sources e he,
      List.forall_mem_cons.2 ⟨h.destinations e he, List.forall_mem_map.2 fun e' he' => ?_⟩⟩
    exact h.conditions e' (hes e' he')

theorem leavingFindings {state : String} {cs : ConditionSet} (hstate : OneLine state)
    (hcs : ∀ c ∈ cs, OneLine c.text) (hf : f ∈ Graph.leavingFindings state cs) :
    ∀ s ∈ f.quoted, OneLine s := by
  unfold Graph.leavingFindings at hf
  split at hf
  · cases hf
  · rcases List.mem_append.1 hf with hf | hf
    · obtain ⟨⟨c, d⟩, hp, rfl⟩ := List.mem_map.1 hf
      obtain ⟨i, j, -, hc, hd⟩ := mem_laterPairs.1 (List.mem_filter.1 hp).1
      simp only [Finding.quoted, List.forall_mem_cons]
      exact ⟨hstate, hcs c (List.mem_of_getElem? hc), hcs d (List.mem_of_getElem? hd),
        List.forall_mem_nil _⟩
    · split at hf
      · cases hf
      · rw [List.mem_singleton.1 hf]
        exact List.forall_mem_singleton.2 hstate

/-- Whatever a diagnosis finds, it quotes texts of one line. -/
theorem quoted (h : g.Plain) (hf : f ∈ g.diagnose.findings) :
    ∀ s ∈ f.quoted, OneLine s := by
  simp only [diagnose, List.mem_append] at hf
  rcases hf with (((((hf | hf) | hf) | hf) | hf) | hf) | hf
  · exact h.duplicateNames hf
  · exact h.missingOutputs hf
  · rw [eq_of_mem_aboutStates hf]
    exact h.unreachable
  · rw [eq_of_mem_aboutStates hf]
    exact h.unexitable
  · rw [eq_of_mem_defaultFindings hf]
    exact List.forall_mem_nil _
  · obtain ⟨group, hgroup, hf⟩ := List.mem_filterMap.1 hf
    exact h.parallelFinding? (Edges.subset_of_mem_parallelGroups group hgroup) hf
  · obtain ⟨n, hn, hf⟩ := List.mem_flatMap.1 hf
    refine leavingFindings (h.names n hn) (fun c hc => ?_) hf
    obtain ⟨e, he, rfl⟩ := List.mem_map.1 hc
    exact h.conditions e (List.mem_filter.1 he).1

end Graph.Plain

/-! ### Worlds -/

namespace World

variable {w : World}

/-- Names are identifiers, those of states and outputs and those that conditions read. -/
structure Spelled (w : World) : Prop where
  states : w.Named
  conditions : ∀ t ∈ w.store.transitions, ∀ x ∈ t.condition.occurrences, isIdentifier x = true

theorem Spelled.graph (h : w.Spelled) : w.graph.Plain := by
  have hnode : ∀ {id : StateId} {n : Node}, w.store.node? id = some n → n.state.Named :=
    fun hn => h.states _ (List.mem_of_getElem? (Store.node?_eq_some_iff.1 hn).2)
  have hname : ∀ {id : StateId} {n : Node}, w.store.node? id = some n → OneLine n.name :=
    fun hn => .of_isIdentifier (hnode hn).name
  have hedge : ∀ e ∈ w.graph.edges, OneLine e.source.name ∧ OneLine e.destination.name ∧
      OneLine e.condition.text := by
    intro e he
    obtain ⟨-, t, ht, hs, hd, hc⟩ := Store.edge?_eq_some_iff.1 (Store.mem_edges.1 he).2
    rw [hc]
    exact ⟨hname hs, hname hd, Expr.oneLine_text (h.conditions t (List.mem_of_getElem? ht))⟩
  exact {
    names := fun n hn => hname (Store.mem_nodes.1 hn).2
    outputs := fun n hn output houtput =>
      .of_isIdentifier ((hnode (Store.mem_nodes.1 hn).2).outputs output houtput)
    sources := fun e he => (hedge e he).1
    destinations := fun e he => (hedge e he).2.1
    conditions := fun e he => (hedge e he).2.2 }

end World

/-- So it is in every machine that a document defines, if its outputs are named so too. -/
theorem Definition.spelled {doc : Document} {d : Definition} (h : ofDocument doc = .ok d)
    (outputs : ∀ e ∈ doc.states, e.outputs.Named) : d.world.Spelled := by
  have hsettles := settles_ofDocument doc
  have hfaults : doc.faults = [] := List.map_eq_nil_iff.1 (hsettles.exists_ok_iff.1 ⟨d, h⟩)
  have hconsistent : doc.Consistent := Document.faults_eq_nil_iff.1 hfaults
  obtain ⟨-, ts, hholds, harrows⟩ := hsettles.of_eq_ok h
  have hdrawn : d.world.DrawnFrom doc ts := ⟨hholds, harrows⟩
  constructor
  · intro s hs
    rw [hholds.states] at hs
    obtain ⟨e, he, rfl⟩ := List.mem_map.1 hs
    exact ⟨hconsistent.identifiers e he, outputs e he⟩
  · intro t ht x hx
    rw [hholds.transitions] at ht
    obtain ⟨arrow, hdraws⟩ := hdrawn.exists_arrow ht
    exact isIdentifier_of_parse hdraws.condition x (Expr.mem_inputs.2 hx)

end Moore
