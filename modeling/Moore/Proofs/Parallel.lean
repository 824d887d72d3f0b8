import Moore.Proofs.Checks
import Moore.Proofs.Grouping

/-
# Parallel transitions

A diagnosis has one finding about each class of two or more registered transitions that lead
from one state to another (`World.joining`).  The finding quotes the condition of every
transition of the class, in the order of their handles, and the findings stand in the order of
the first handles of their classes (`World.ParallelClasses`).

The findings are read off groups that grow pair by pair, which are the classes of the edges by
their ends (`Edges.parallelGroups_eq_classes`).
-/

namespace Moore

/-- Where every lookup finds something, one thing is found for each. -/
theorem forall₂_filterMap {α β : Type} {R : α → β → Prop} {f : α → Option β} {l : List α}
    (h : ∀ a ∈ l, ∃ b, f a = some b ∧ R a b) : List.Forall₂ R l (l.filterMap f) := by
  induction l with
  | nil => exact .nil
  | cons a l ih =>
    obtain ⟨⟨b, hb, hab⟩, htail⟩ := List.forall_mem_cons.1 h
    rw [List.filterMap_cons, hb]
    exact .cons hab (ih htail)

/-! ### Ends that edges share -/

namespace Edges

variable {es : List Edge} {p : StateId × StateId}

/-- The pairs of ends that two or more edges have, in the order of their first edges. -/
def sharedEnds (es : List Edge) : List (StateId × StateId) :=
  (es.map ends).eraseDups.filter fun p => 1 < (es.filter (ends · = p)).length

theorem parallelClasses_eq_map (es : List Edge) :
    parallelClasses es = (sharedEnds es).map fun p => es.filter (ends · = p) :=
  List.filter_map

theorem mem_sharedEnds : p ∈ sharedEnds es ↔ 1 < (es.filter (ends · = p)).length := by
  simp only [sharedEnds, List.mem_filter, List.mem_eraseDups, decide_eq_true_eq]
  refine and_iff_right_of_imp fun htwo => ?_
  obtain ⟨e, he⟩ := List.exists_mem_of_length_pos (Nat.zero_lt_of_lt htwo)
  obtain ⟨he, hends⟩ := List.mem_filter.1 he
  exact List.mem_map.2 ⟨e, he, by simpa using hends⟩

/-- Shared ends are listed once, those with an earlier edge first. -/
theorem pairwise_sharedEnds {R : Edge → Edge → Prop} (h : es.Pairwise R) :
    (sharedEnds es).Pairwise fun p q =>
      p ≠ q ∧ ∃ e ∈ es, ends e = p ∧ ∀ f ∈ es, ends f = q → R e f :=
  (pairwise_eraseDups_map ends h).filter _

end Edges

namespace World

/-! ### Classes of transitions -/

/-- The registered transitions that lead from one state to another, in the order of their
handles. -/
def joining (w : World) (p : StateId × StateId) : List TransitionId :=
  w.machine.transitions.handles.filter fun id =>
    (w.store.transition? id).map (fun t => (t.source, t.destination)) = some p

/-- The finding about the transitions from one state to another: it gives the names of the two
states and the condition of each transition, equal ones as often as they occur. -/
def Reports (w : World) (p : StateId × StateId) (f : Finding) : Prop :=
  ∃ source destination ts, w.store.state? p.1 = some source ∧
    w.store.state? p.2 = some destination ∧ w.store.transitions? (w.joining p) = some ts ∧
    f = .parallelTransitions source.name destination.name (ts.map (·.condition.text))

/-- The findings are about the transitions between these pairs of states, one about each. -/
structure ParallelClasses (w : World) (pairs : List (StateId × StateId))
    (findings : List Finding) : Prop where
  /-- The pairs are those that two or more transitions share. -/
  mem_iff : ∀ p, p ∈ pairs ↔ 1 < (w.joining p).length
  nodup : pairs.Nodup
  reported : List.Forall₂ w.Reports pairs findings
  /-- The transitions of a class come in the order of their handles. -/
  increasing : ∀ p, (w.joining p).Pairwise fun i j => i.index < j.index
  /-- The classes come in the order of their smallest handles. -/
  ordered : pairs.Pairwise fun p q => ∃ i ∈ w.joining p, ∀ j ∈ w.joining q, i.index < j.index
  /-- No transition is reported twice. -/
  disjoint : (pairs.flatMap w.joining).Nodup

section Known

variable {w : World} (known : w.store.knowsTransitions w.machine.transitions = true)

theorem pairwise_joining (w : World) (p : StateId × StateId) :
    (w.joining p).Pairwise fun i j => i.index < j.index :=
  w.machine.transitions.sorted.filter _

theorem mem_joining {p : StateId × StateId} {id : TransitionId} :
    id ∈ w.joining p ↔ id ∈ w.machine.transitions ∧
      ∃ t, w.store.transition? id = some t ∧ (t.source, t.destination) = p := by
  simp [joining, HandleSet.mem_def]

include known

/-- The edges with certain ends show the transitions of a class. -/
theorem map_id_filter_ends (p : StateId × StateId) :
    (w.graph.edges.filter (Edges.ends · = p)).map Edge.id = w.joining p := by
  have hids : w.graph.edges.map Edge.id = w.machine.transitions.handles :=
    Store.map_id_edges known
  rw [joining, ← hids, List.filter_map]
  refine congrArg (List.map Edge.id) (List.filter_congr fun e he => ?_)
  rw [Function.comp_apply, (w.store.showsEdges_edges _).transitions e he, Option.map_some]
  exact decide_eq_decide.2 (Option.some_inj (a := Edges.ends e)).symm

theorem mem_sharedEnds_iff {p : StateId × StateId} :
    p ∈ Edges.sharedEnds w.graph.edges ↔ 1 < (w.joining p).length := by
  rw [Edges.mem_sharedEnds, ← map_id_filter_ends known, List.length_map]

/-- The group of a class gives the finding about it. -/
theorem exists_reports {p : StateId × StateId} (hp : 1 < (w.joining p).length) :
    ∃ f, Graph.parallelFinding? (w.graph.edges.filter (Edges.ends · = p)) = some f ∧
      w.Reports p f := by
  have hshows : w.store.ShowsEdges (w.graph.edges.filter (Edges.ends · = p)) :=
    (w.store.showsEdges_edges _).subset fun e he => (List.mem_filter.1 he).1
  have hids := map_id_filter_ends known p
  cases hgroup : w.graph.edges.filter (Edges.ends · = p) with
  | nil =>
    rw [← hids, hgroup] at hp
    cases hp
  | cons e es =>
    rw [hgroup] at hshows hids
    have hends : Edges.ends e = p := by
      have he : e ∈ w.graph.edges.filter (Edges.ends · = p) := hgroup ▸ List.mem_cons_self
      simpa using (List.mem_filter.1 he).2
    obtain ⟨-, hsource⟩ := Store.node?_eq_some_iff.1 (hshows.sources e.source List.mem_cons_self)
    obtain ⟨-, hdestination⟩ :=
      Store.node?_eq_some_iff.1 (hshows.destinations e.destination List.mem_cons_self)
    have hts : w.store.transitions? (w.joining p) = some ((e :: es).map Edge.transition) :=
      hids ▸ hshows.transitions?_eq
    subst hends
    refine ⟨_, rfl, e.source.state, e.destination.state, _, hsource, hdestination, hts, ?_⟩
    rw [List.map_map]
    rfl

/-- One finding for each pair of ends that is shared. -/
theorem forall₂_reports : List.Forall₂ w.Reports (Edges.sharedEnds w.graph.edges)
    (w.graph.diagnose.ofCode "PARALLEL_TRANSITIONS") := by
  have hids : (w.graph.edges.map Edge.id).Nodup := w.store.nodup_ids_edges _
  rw [Graph.ofCode_parallelTransitions, Edges.parallelGroups_eq_classes hids,
    Edges.parallelClasses_eq_map, List.filterMap_map]
  exact forall₂_filterMap fun p hp => exists_reports known ((mem_sharedEnds_iff known).1 hp)

/-- The classes of the shared ends come in the order of their smallest handles. -/
theorem pairwise_joining_sharedEnds : (Edges.sharedEnds w.graph.edges).Pairwise fun p q =>
    p ≠ q ∧ ∃ i ∈ w.joining p, ∀ j ∈ w.joining q, i.index < j.index := by
  refine (Edges.pairwise_sharedEnds (w.store.pairwise_edges _)).imp ?_
  rintro p q ⟨hne, e, he, hp, hfirst⟩
  refine ⟨hne, e.id, ?_, fun j hj => ?_⟩
  · rw [← map_id_filter_ends known]
    exact List.mem_map_of_mem (List.mem_filter.2 ⟨he, by simpa using hp⟩)
  · rw [← map_id_filter_ends known] at hj
    obtain ⟨f, hf, rfl⟩ := List.mem_map.1 hj
    obtain ⟨hf, hq⟩ := List.mem_filter.1 hf
    exact hfirst f hf (by simpa using hq)

end Known

/-- Different pairs of states have no transition in common. -/
theorem disjoint_joining (w : World) {p q : StateId × StateId} (h : p ≠ q) :
    List.Disjoint (w.joining p) (w.joining q) := by
  intro id hp hq
  obtain ⟨-, t, ht, rfl⟩ := mem_joining.1 hp
  obtain ⟨-, t', ht', rfl⟩ := mem_joining.1 hq
  rw [Option.some_inj.1 (ht.symm.trans ht')] at h
  exact h rfl

/-- A diagnosis has exactly one finding about each class of two or more registered transitions
with the same ends.  It quotes the condition of each of them in the order of their handles, the
findings are ordered by the smallest handles of their classes, and no transition occurs twice. -/
theorem one_finding_per_class (w : World)
    (known : w.store.knowsTransitions w.machine.transitions = true) :
    ∃ pairs, w.ParallelClasses pairs (w.graph.diagnose.ofCode "PARALLEL_TRANSITIONS") := by
  have hpairwise := pairwise_joining_sharedEnds known
  have hnodup : (Edges.sharedEnds w.graph.edges).Nodup := hpairwise.imp And.left
  exact ⟨Edges.sharedEnds w.graph.edges, {
    mem_iff := fun p => mem_sharedEnds_iff known
    nodup := hnodup
    reported := forall₂_reports known
    increasing := w.pairwise_joining
    ordered := hpairwise.imp And.right
    disjoint := List.nodup_flatMap.2
      ⟨fun p _ => Handle.nodup_of_pairwise (w.pairwise_joining p), hnodup.imp w.disjoint_joining⟩ }⟩

/-- Three transitions lead from `idle` to `run` and two lead back, in turns.  Each class has one
finding, which repeats the equal conditions. -/
theorem classes_in_turns_reported :
    let press : Condition := .var "press"
    let release : Condition := .var "release"
    let there (condition : Condition) : Transition := ⟨⟨0⟩, ⟨1⟩, condition⟩
    let back (condition : Condition) : Transition := ⟨⟨1⟩, ⟨0⟩, condition⟩
    let w : World := {
      store := {
        states := [{ name := "idle" }, { name := "run" }]
        transitions := [there press, back release, there release, back press, there press] }
      machine := {
        states := HandleSet.ofList [⟨0⟩, ⟨1⟩]
        transitions := HandleSet.ofList [⟨0⟩, ⟨1⟩, ⟨2⟩, ⟨3⟩, ⟨4⟩] } }
    w.store.knowsTransitions w.machine.transitions = true ∧
      ∃ pairs, w.ParallelClasses pairs [
        .parallelTransitions "idle" "run" ["press", "release", "press"],
        .parallelTransitions "run" "idle" ["release", "press"]] := by
  intro press release there back w
  have known : w.store.knowsTransitions w.machine.transitions = true := by decide
  have hfound : w.graph.diagnose.ofCode "PARALLEL_TRANSITIONS" = [
      .parallelTransitions "idle" "run" ["press", "release", "press"],
      .parallelTransitions "run" "idle" ["release", "press"]] := by
    rw [Graph.ofCode_parallelTransitions]
    decide
  exact ⟨known, hfound ▸ one_finding_per_class w known⟩

end World

end Moore
