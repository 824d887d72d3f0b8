import Mathlib.Data.List.Forall2
import Moore.Definition.Load
import Moore.Proofs.Condition
import Moore.Proofs.Faults
import Moore.Proofs.Graph

/-
# What a document defines

`Document.faults` lists all that is wrong with a document: bad names of states, then for each
entry of transitions a missing source, a target that does not name one state, a condition
that cannot be read, and sources that do not name one state.  The machine of a document is
built if the list is empty (`Document.Consistent`), and otherwise its first element is the
error.

What is built up to some point is `World.Holds`: the states and transitions read so far, all
registered, and the last default state.
-/

namespace Moore

/-! ### Faults -/

def StateEntry.faults (e : StateEntry) : List DocumentFault :=
  if isIdentifier e.name then [] else [.model (.expr (.invalidIdentifier e.name))]

/-- The fault of a text that is no condition. -/
def Condition.faults (text : String) : List DocumentFault :=
  match Expr.parse text with
  | .ok _ => []
  | .error reason => [.model (.condition text reason)]

namespace Document

variable (d : Document)

/-- The fault of an end that does not name one state. -/
def endFaults (role : Role) (name : String) : List DocumentFault :=
  match d.states.countP (·.name = name) with
  | 0 => [.missing role name]
  | 1 => []
  | count => [.ambiguous role name count]

def entryFaults (e : TransitionEntry) : List DocumentFault :=
  (if e.sources.isEmpty then [.noSource e.target] else []) ++ d.endFaults .target e.target ++
    Condition.faults e.condition ++ e.sources.flatMap (d.endFaults .source)

/-- All faults of a document, in the order in which it is read. -/
def faults : List DocumentFault :=
  d.states.flatMap StateEntry.faults ++ d.transitions.flatMap d.entryFaults

/-! ### What documents say -/

/-- A name belongs to the state at this place and to no other one. -/
def Names (name : String) (id : StateId) : Prop :=
  ∀ i, (∃ e, d.states[i]? = some e ∧ e.name = name) ↔ i = id.index

/-- A document without faults. -/
structure Consistent : Prop where
  identifiers : ∀ s ∈ d.states, isIdentifier s.name = true
  sources : ∀ t ∈ d.transitions, t.sources ≠ []
  conditions : ∀ t ∈ d.transitions, ∃ c, Expr.parse t.condition = .ok c
  targets : ∀ t ∈ d.transitions, ∃ id, d.Names t.target id
  origins : ∀ t ∈ d.transitions, ∀ name ∈ t.sources, ∃ id, d.Names name id

/-- The arrows that a document draws, each an entry with one of its sources. -/
def arrows : List (TransitionEntry × String) :=
  d.transitions.flatMap fun e => e.sources.map (e, ·)

/-- The transition that an arrow stands for. -/
structure Draws (arrow : TransitionEntry × String) (t : Transition) : Prop where
  source : d.Names arrow.2 t.source
  destination : d.Names arrow.1.target t.destination
  condition : Expr.parse arrow.1.condition = .ok t.condition

end Document

/-- The state of an entry. -/
def StateEntry.state (e : StateEntry) : State where
  name := e.name
  outputs := e.outputs
  isDefault := e.isDefault

/-- The place of the last entry that is marked as default. -/
def lastDefault (es : List StateEntry) : Option StateId :=
  (es.zipIdx.filter (·.1.isDefault)).getLast?.map fun p => ⟨p.2⟩

/-- The world holds the states of the entries and these transitions, all of them registered,
and its default state is the last one that is marked so. -/
structure World.Holds (w : World) (es : List StateEntry) (ts : List Transition) : Prop where
  states : w.store.states = es.map StateEntry.state
  transitions : w.store.transitions = ts
  registeredStates : ∀ id, id ∈ w.machine.states ↔ w.store.HasState id
  registeredTransitions : ∀ id, id ∈ w.machine.transitions ↔ w.store.HasTransition id
  defaultState : w.machine.defaultState = lastDefault es

/-! ### Ends of transitions -/

namespace Document

variable {d : Document} {name : String} {id : StateId}

theorem Names.lt_length (h : d.Names name id) : id.index < d.states.length := by
  obtain ⟨e, he, -⟩ := (h id.index).2 rfl
  exact (List.getElem?_eq_some_iff.1 he).1

/-- Whoever bears the name stands in the list of places that `resolve` looks at. -/
theorem mem_bearers {p : StateEntry × Nat} :
    p ∈ d.states.zipIdx.filter (·.1.name = name) ↔
      d.states[p.2]? = some p.1 ∧ p.1.name = name := by
  simp [List.mem_filter, List.mem_zipIdx_iff_getElem?]

theorem length_bearers (d : Document) (name : String) :
    (d.states.zipIdx.filter (·.1.name = name)).length = d.states.countP (·.name = name) := by
  rw [← List.countP_eq_length_filter]
  conv_rhs => rw [← List.zipIdx_map_fst 0 d.states, List.countP_map]
  rfl

/-- A name is looked up. -/
theorem settles_resolve (d : Document) (role : Role) (name : String) :
    Settles (d.endFaults role name) (d.Names name) (d.resolve role name) := by
  have hlength := length_bearers d name
  have hmem : ∀ p, p ∈ d.states.zipIdx.filter (·.1.name = name) ↔
      d.states[p.2]? = some p.1 ∧ p.1.name = name := fun p => mem_bearers
  unfold resolve endFaults
  cases hb : d.states.zipIdx.filter (·.1.name = name) with
  | nil =>
    rw [hb] at hlength
    rw [← hlength]
    exact .error rfl
  | cons p ps =>
    rw [hb] at hlength hmem
    rw [← hlength]
    cases ps with
    | nil =>
      refine .ok rfl fun i => ?_
      constructor
      · rintro ⟨e, he, hname⟩
        have hp : (e, i) ∈ [p] := (hmem (e, i)).2 ⟨he, hname⟩
        rw [← List.mem_singleton.1 hp]
      · rintro rfl
        exact ⟨p.1, (hmem p).1 (List.mem_singleton_self p)⟩
    | cons q qs => exact .error rfl

end Document

/-! ### One step -/

theorem lastDefault_concat (es : List StateEntry) (e : StateEntry) :
    lastDefault (es ++ [e]) = if e.isDefault then some ⟨es.length⟩ else lastDefault es := by
  unfold lastDefault
  rw [List.zipIdx_append, List.filter_append]
  by_cases hmark : e.isDefault = true
  · simp [hmark]
  · simp [hmark]

theorem modify_concat {α : Type} (l : List α) (a : α) (f : α → α) :
    (l ++ [a]).modify l.length f = l ++ [f a] := by
  simp [List.modify_eq_take_cons_drop]

namespace Store

variable {s : Store} {id : StateId} {tid : TransitionId}

/-- A store with one more state has all the states that it had, and the next one. -/
theorem hasState_addState_iff {state : State} :
    (s.addState state).HasState id ↔ id = s.nextState ∨ s.HasState id := by
  obtain ⟨index⟩ := id
  simp only [HasState, addState, nextState, List.length_append, List.length_singleton,
    Handle.mk.injEq]
  omega

theorem hasTransition_pushTransition_iff {t : Transition} :
    (s.pushTransition t).HasTransition tid ↔ tid = s.nextTransition ∨ s.HasTransition tid := by
  obtain ⟨index⟩ := tid
  simp only [HasTransition, pushTransition, nextTransition, List.length_append,
    List.length_singleton, Handle.mk.injEq]
  omega

end Store

namespace World.Holds

variable {w : World} {es : List StateEntry} {ts : List Transition}

theorem hasState_iff (h : w.Holds es ts) {id : StateId} :
    w.store.HasState id ↔ id.index < es.length := by
  rw [Store.HasState, h.states, List.length_map]

theorem nextState_eq (h : w.Holds es ts) : w.store.nextState = ⟨es.length⟩ := by
  rw [Store.nextState, h.states, List.length_map]

/-- The state of an entry is stored, registered and, if it is marked, made the default one. -/
theorem exists_addState (h : w.Holds es ts) (e : StateEntry) :
    ∃ w', { w with store := w.store.addState { name := e.name, outputs := e.outputs } }.addState
        w.store.nextState e.isDefault = .ok w' ∧ w'.Holds (es ++ [e]) ts := by
  have hnext : (w.store.addState { name := e.name, outputs := e.outputs }).HasState
      w.store.nextState := Store.hasState_addState_iff.2 (.inl rfl)
  have hregistered : ∀ id, id ∈ w.machine.states.insert w.store.nextState ↔
      (w.store.addState { name := e.name, outputs := e.outputs }).HasState id := by
    intro id
    rw [HandleSet.mem_insert, Store.hasState_addState_iff, h.registeredStates]
  have hdefault := lastDefault_concat es e
  cases hmark : e.isDefault with
  | false =>
    rw [hmark] at hdefault
    refine ⟨_, apply_eq_ok_iff.2 (.addState hnext), ?_⟩
    exact {
      states := by
        rw [List.map_append, ← h.states, List.map_singleton, StateEntry.state, hmark]
        rfl
      transitions := h.transitions
      registeredStates := hregistered
      registeredTransitions := h.registeredTransitions
      defaultState := h.defaultState.trans hdefault.symm }
  | true =>
    rw [hmark] at hdefault
    refine ⟨_, apply_eq_ok_iff.2 (.addDefault hnext), ?_⟩
    exact {
      states := by
        rw [List.map_append, ← h.states, List.map_singleton, StateEntry.state, hmark]
        exact modify_concat _ _ _
      transitions := h.transitions
      registeredStates := fun id => (hregistered id).trans Store.hasState_withState.symm
      registeredTransitions := h.registeredTransitions
      defaultState := by rw [hdefault, h.nextState_eq]; rfl }

theorem settles_addState (h : w.Holds es ts) (e : StateEntry) :
    Settles e.faults (fun w' => w'.Holds (es ++ [e]) ts) (Document.addState w e) := by
  unfold StateEntry.faults Document.addState checkIdentifier
  by_cases hname : isIdentifier e.name = true
  · rw [if_pos hname, if_pos hname]
    obtain ⟨w', hadd, hw'⟩ := h.exists_addState e
    refine Settles.of_ok ?_ hw'
    simp only [hadd]
    rfl
  · rw [if_neg hname, if_neg hname]
    exact .error rfl

/-- A transition between stored states is stored and registered. -/
theorem exists_addTransition (h : w.Holds es ts) {t : Transition}
    (hs : t.source.index < es.length) (hd : t.destination.index < es.length) :
    ∃ w', Document.addTransition w t = .ok w' ∧ w'.Holds es (ts ++ [t]) := by
  let stored : World := { w with store := w.store.pushTransition t }
  let registered : World := { stored with
    machine := { stored.machine with
      transitions := stored.machine.transitions.insert w.store.nextTransition } }
  have hstore : w.store.addTransition t = .ok stored.store :=
    Store.addTransition_eq_ok_iff.2 ⟨h.hasState_iff.2 hs, h.hasState_iff.2 hd, rfl⟩
  have hnext : stored.store.HasTransition w.store.nextTransition :=
    Store.hasTransition_pushTransition_iff.2 (.inl rfl)
  have hregister : stored.addTransition w.store.nextTransition = .ok registered :=
    apply_eq_ok_iff.2 (.addTransition hnext)
  refine ⟨registered, ?_, ?_⟩
  · unfold Document.addTransition
    rw [hstore]
    exact congrArg (Except.mapError DocumentFault.model) hregister
  · exact {
      states := h.states
      transitions := by rw [← h.transitions]; rfl
      registeredStates := h.registeredStates
      registeredTransitions := by
        intro id
        rw [HandleSet.mem_insert, h.registeredTransitions]
        exact Store.hasTransition_pushTransition_iff.symm
      defaultState := h.defaultState }

end World.Holds

theorem World.holds_empty : World.Holds {} [] [] where
  states := rfl
  transitions := rfl
  registeredStates := by
    intro id
    simp [Store.HasState]
  registeredTransitions := by
    intro id
    simp [Store.HasTransition]
  defaultState := rfl

/-! ### A document -/

theorem Condition.settles_parse (text : String) :
    Settles (faults text) (fun c => Expr.parse text = .ok c)
      ((parse text).mapError DocumentFault.model) := by
  unfold faults parse
  cases Expr.parse text with
  | ok c => exact .ok rfl rfl
  | error reason => exact .error rfl

namespace Document

variable {d : Document} {w : World} {ts : List Transition}

/-- One of the arrows of an entry, once its target and its condition are known. -/
theorem settles_arrow (h : w.Holds d.states ts) {e : TransitionEntry} {destination : StateId}
    {condition : Condition} (hd : d.Names e.target destination)
    (hc : Expr.parse e.condition = .ok condition) (name : String) :
    Settles (d.endFaults .source name)
      (fun w' => ∃ t, d.Draws (e, name) t ∧ w'.Holds d.states (ts ++ [t]))
      (do
        let source ← d.resolve .source name
        addTransition w { source, destination, condition }) := by
  rw [← List.append_nil (d.endFaults .source name)]
  refine (d.settles_resolve .source name).bind fun source hs => ?_
  obtain ⟨w', hw', hholds⟩ := h.exists_addTransition
    (t := { source, destination, condition }) hs.lt_length hd.lt_length
  exact .of_ok hw' ⟨{ source, destination, condition }, ⟨hs, hd, hc⟩, hholds⟩

theorem settles_addTransitions (h : w.Holds d.states ts) (e : TransitionEntry) :
    Settles (d.entryFaults e)
      (fun w' => ∃ us, List.Forall₂ d.Draws (e.sources.map (e, ·)) us ∧
        w'.Holds d.states (ts ++ us))
      (d.addTransitions w e) := by
  unfold addTransitions entryFaults
  by_cases hempty : e.sources.isEmpty = true
  · rw [if_pos hempty, if_pos hempty]
    exact .error rfl
  · rw [if_neg hempty, if_neg hempty, List.nil_append, List.append_assoc]
    refine (d.settles_resolve .target e.target).bind fun destination hd => ?_
    refine (Condition.settles_parse e.condition).bind fun condition hc => ?_
    refine Settles.foldlM (P := fun names (w' : World) => ∃ us,
      List.Forall₂ d.Draws (names.map (e, ·)) us ∧ w'.Holds d.states (ts ++ us))
      ?_ ⟨[], .nil, by rwa [List.append_nil]⟩ e.sources
    rintro names name w' ⟨us, hus, hw'⟩
    refine (settles_arrow hw' hd hc name).mono ?_
    rintro w'' ⟨t, ht, hw''⟩
    refine ⟨us ++ [t], ?_, by rwa [← List.append_assoc]⟩
    rw [List.map_append]
    exact List.rel_append hus (.cons ht .nil)

/-- Building stops at the first fault, and otherwise draws all arrows. -/
theorem settles_build (d : Document) :
    Settles d.faults (fun w => ∃ ts, w.Holds d.states ts ∧ List.Forall₂ d.Draws d.arrows ts)
      d.build := by
  unfold faults build
  have hstates : Settles (d.states.flatMap StateEntry.faults) (fun w => w.Holds d.states [])
      (d.states.foldlM addState {}) :=
    Settles.foldlM (P := fun es (w : World) => w.Holds es [])
      (fun _ e _ hw => hw.settles_addState e) World.holds_empty d.states
  refine hstates.bind fun w hw => ?_
  refine Settles.foldlM (P := fun es (w : World) => ∃ ts, w.Holds d.states ts ∧
    List.Forall₂ d.Draws (es.flatMap fun e => e.sources.map (e, ·)) ts) ?_
    ⟨[], hw, .nil⟩ d.transitions
  rintro es e w' ⟨ts, hw', hts⟩
  refine (settles_addTransitions hw' e).mono ?_
  rintro w'' ⟨us, hus, hw''⟩
  refine ⟨ts ++ us, hw'', ?_⟩
  rw [List.flatMap_append, List.flatMap_singleton]
  exact List.rel_append hts hus

/-! ### Consistency -/

/-- A name of one state is looked up, whatever part the state plays. -/
theorem Names.resolve_eq {name : String} {id : StateId} (h : d.Names name id) (role : Role) :
    d.resolve role name = .ok id := by
  have hplace : ∀ p ∈ d.states.zipIdx.filter (·.1.name = name), p.2 = id.index := by
    intro p hp
    exact (h p.2).1 ⟨p.1, mem_bearers.1 hp⟩
  have hincreasing : (d.states.zipIdx.filter (·.1.name = name)).Pairwise fun p q => p.2 < q.2 :=
    (pairwise_zipIdx d.states).filter _
  obtain ⟨e, he⟩ := (h id.index).2 rfl
  have hmem : (e, id.index) ∈ d.states.zipIdx.filter (·.1.name = name) := mem_bearers.2 he
  unfold resolve
  cases hb : d.states.zipIdx.filter (·.1.name = name) with
  | nil =>
    rw [hb] at hmem
    cases hmem
  | cons p ps =>
    rw [hb] at hplace hincreasing
    have hp := hplace p List.mem_cons_self
    cases ps with
    | nil => exact congrArg (fun i => Except.ok (Handle.mk i)) hp
    | cons q qs =>
      have hq := hplace q (List.mem_cons_of_mem p List.mem_cons_self)
      have hlt : p.2 < q.2 := (List.pairwise_cons.1 hincreasing).1 q List.mem_cons_self
      omega

theorem endFaults_eq_nil_iff {role : Role} {name : String} :
    d.endFaults role name = [] ↔ ∃ id, d.Names name id := by
  have hsettles := d.settles_resolve role name
  rw [← hsettles.exists_ok_iff]
  constructor
  · rintro ⟨id, hid⟩
    exact ⟨id, hsettles.of_eq_ok hid⟩
  · rintro ⟨id, hid⟩
    exact ⟨id, hid.resolve_eq role⟩

theorem entryFaults_eq_nil_iff {e : TransitionEntry} : d.entryFaults e = [] ↔
    e.sources ≠ [] ∧ (∃ id, d.Names e.target id) ∧ (∃ c, Expr.parse e.condition = .ok c) ∧
      ∀ name ∈ e.sources, ∃ id, d.Names name id := by
  have hcondition : Condition.faults e.condition = [] ↔ ∃ c, Expr.parse e.condition = .ok c := by
    unfold Condition.faults
    cases Expr.parse e.condition <;> simp
  unfold entryFaults
  simp only [List.append_eq_nil_iff, List.flatMap_eq_nil_iff, endFaults_eq_nil_iff, hcondition]
  simp [and_assoc]

theorem faults_eq_nil_iff : d.faults = [] ↔ d.Consistent := by
  have hname : ∀ s : StateEntry, s.faults = [] ↔ isIdentifier s.name = true := by
    intro s
    unfold StateEntry.faults
    by_cases h : isIdentifier s.name = true <;> simp [h]
  unfold faults
  simp only [List.append_eq_nil_iff, List.flatMap_eq_nil_iff, hname, entryFaults_eq_nil_iff]
  constructor
  · rintro ⟨hnames, hentries⟩
    exact {
      identifiers := hnames
      sources := fun t ht => (hentries t ht).1
      targets := fun t ht => (hentries t ht).2.1
      conditions := fun t ht => (hentries t ht).2.2.1
      origins := fun t ht => (hentries t ht).2.2.2 }
  · intro h
    refine ⟨h.identifiers, ?_⟩
    intro t ht
    exact ⟨h.sources t ht, h.targets t ht, h.conditions t ht, h.origins t ht⟩

end Document

namespace Definition

/-- What a definition is made of: its document, without faults, and the machine of that. -/
theorem settles_ofDocument (doc : Document) :
    Settles (doc.faults.map DefinitionError.document)
      (fun d => d.document = doc ∧ ∃ ts, d.world.Holds doc.states ts ∧
        List.Forall₂ doc.Draws doc.arrows ts)
      (ofDocument doc) := by
  rw [← List.append_nil (doc.faults.map _)]
  refine ((doc.settles_build).mapError DefinitionError.document).bind fun w hw => ?_
  exact .ok rfl ⟨rfl, hw⟩

/-- A document defines a machine exactly if it is consistent.  The machine has the states of
the document in their order, its last default state, and one transition for each arrow in
the order of the document, all of them registered.  Otherwise the error is the first fault
of the document. -/
theorem defined_iff_consistent (doc : Document) :
    ((∃ d, ofDocument doc = .ok d) ↔ doc.Consistent) ∧
      (∀ d, ofDocument doc = .ok d → d.document = doc ∧
        ∃ ts, d.world.Holds doc.states ts ∧ List.Forall₂ doc.Draws doc.arrows ts) ∧
      ∀ e, ofDocument doc = .error e ↔
        doc.faults.head?.map DefinitionError.document = some e := by
  have hsettles := settles_ofDocument doc
  refine ⟨?_, fun d hd => hsettles.of_eq_ok hd, fun e => ?_⟩
  · rw [hsettles.exists_ok_iff, List.map_eq_nil_iff, Document.faults_eq_nil_iff]
  · rw [hsettles.eq_error_iff, List.head?_map]

/-- Two states may share a name as long as no arrow uses it, and of two default states the
last one counts.  Of several faults the one that is met first is the error. -/
theorem spare_states_defined :
    let states : List StateEntry := [{ name := "off", isDefault := true },
      { name := "on", isDefault := true }, { name := "spare" }, { name := "spare" }]
    let doc : Document := { states, transitions := [
      { sources := ["off", "on"], target := "off", condition := "~go" },
      { sources := ["on"], target := "on", condition := "go" }] }
    let bad : Document := { states, transitions := [
      { sources := ["off", "spare"], target := "off", condition := "go" },
      { sources := [], target := "lost", condition := "go &" }] }
    let ts : List Transition := [⟨⟨0⟩, ⟨0⟩, .not (.var "go")⟩, ⟨⟨1⟩, ⟨0⟩, .not (.var "go")⟩,
      ⟨⟨1⟩, ⟨1⟩, .var "go"⟩]
    doc.Consistent ∧
      (∃ d, ofDocument doc = .ok d ∧ d.world.Holds states ts ∧
        d.world.machine.defaultState = some ⟨1⟩ ∧ List.Forall₂ doc.Draws doc.arrows ts) ∧
      ofDocument bad = .error (.document (.ambiguous .source "spare" 2)) := by
  intro states doc bad ts
  obtain ⟨hiff, hdefined, -⟩ := defined_iff_consistent doc
  obtain ⟨-, -, herror⟩ := defined_iff_consistent bad
  have hdoc : ∃ d, ofDocument doc = .ok d := ⟨_, rfl⟩
  refine ⟨hiff.1 hdoc, ?_, (herror _).2 rfl⟩
  obtain ⟨d, hd⟩ := hdoc
  obtain ⟨-, us, hholds, harrows⟩ := hdefined d hd
  have hus : us = ts := by
    rw [← hholds.transitions]
    cases hd
    rfl
  rw [hus] at hholds harrows
  exact ⟨d, hd, hholds, hholds.defaultState, harrows⟩

end Definition

end Moore
