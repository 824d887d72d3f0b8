import Moore.Machine
import Moore.Proofs.Except

/-
# What edits do

`World.Effect` lists the changes that edits make, one rule for each kind of edit with the
conditions under which it succeeds, and `apply_eq_ok_iff` says that `World.apply` makes
exactly these.  Facts about all edits are proved by cases on the rules.

The first such fact: in a world that was built by edits, all handles refer to something
(`World.Closed`).  Transitions lead from stored states to stored states, and the machine
registers stored states and transitions only, its default state among them.
-/

namespace Moore

theorem checkIdentifier_eq_ok_iff {name : String} {u : Unit} :
    checkIdentifier name = .ok u ↔ isIdentifier name = true := by
  simp [checkIdentifier]

/-! ### Stores -/

namespace Store

/-- The store holds a state of this handle. -/
def HasState (s : Store) (id : StateId) : Prop :=
  id.index < s.states.length

instance (s : Store) (id : StateId) : Decidable (s.HasState id) :=
  inferInstanceAs (Decidable (id.index < s.states.length))

/-- The store holds a transition of this handle. -/
def HasTransition (s : Store) (id : TransitionId) : Prop :=
  id.index < s.transitions.length

/-- The store with a state changed. -/
def withState (s : Store) (id : StateId) (f : State → State) : Store :=
  { s with states := s.states.modify id.index f }

/-- The store with a transition changed. -/
def withTransition (s : Store) (id : TransitionId) (f : Transition → Transition) : Store :=
  { s with transitions := s.transitions.modify id.index f }

/-- The store with one more transition. -/
def pushTransition (s : Store) (t : Transition) : Store :=
  { s with transitions := s.transitions ++ [t] }

variable {s s' : Store} {id other : StateId} {tid other' : TransitionId} {state : State}
  {t : Transition} {f : State → State} {g : Transition → Transition}

theorem checkState_eq_ok_iff {u : Unit} : s.checkState id = .ok u ↔ s.HasState id := by
  simp [checkState, HasState]

theorem checkTransition_eq_ok_iff {u : Unit} :
    s.checkTransition tid = .ok u ↔ s.HasTransition tid := by
  simp [checkTransition, HasTransition]

theorem addTransition_eq_ok_iff : s.addTransition t = .ok s' ↔
    s.HasState t.source ∧ s.HasState t.destination ∧ s' = s.pushTransition t := by
  simp only [addTransition, bind_eq_ok_iff, checkState_eq_ok_iff, pure_eq_ok_iff]
  simp [pushTransition]

theorem modifyState_eq_ok_iff :
    s.modifyState id f = .ok s' ↔ s.HasState id ∧ s' = s.withState id f := by
  simp only [modifyState, bind_eq_ok_iff, checkState_eq_ok_iff, pure_eq_ok_iff]
  simp [withState]

theorem modifyTransition_eq_ok_iff :
    s.modifyTransition tid g = .ok s' ↔ s.HasTransition tid ∧ s' = s.withTransition tid g := by
  simp only [modifyTransition, bind_eq_ok_iff, checkTransition_eq_ok_iff, pure_eq_ok_iff]
  simp [withTransition]

theorem HasState.addState (h : s.HasState id) : (s.addState state).HasState id := by
  simp only [HasState, Store.addState, List.length_append] at h ⊢
  omega

@[simp] theorem hasState_withState : (s.withState other f).HasState id ↔ s.HasState id := by
  simp [HasState, withState]

@[simp] theorem hasState_withTransition : (s.withTransition tid g).HasState id ↔ s.HasState id :=
  Iff.rfl

@[simp] theorem hasState_pushTransition : (s.pushTransition t).HasState id ↔ s.HasState id :=
  Iff.rfl

@[simp] theorem hasTransition_addState :
    (s.addState state).HasTransition tid ↔ s.HasTransition tid :=
  Iff.rfl

@[simp] theorem hasTransition_withState :
    (s.withState id f).HasTransition tid ↔ s.HasTransition tid :=
  Iff.rfl

@[simp] theorem hasTransition_withTransition :
    (s.withTransition other' g).HasTransition tid ↔ s.HasTransition tid := by
  simp [HasTransition, withTransition]

theorem HasTransition.pushTransition (h : s.HasTransition tid) :
    (s.pushTransition t).HasTransition tid := by
  simp only [HasTransition, Store.pushTransition, List.length_append] at h ⊢
  omega

end Store

/-! ### Edits -/

namespace World

/-- The change that an edit makes, when it succeeds. -/
inductive Effect (w : World) : Edit → World → Prop where
  | newState {name : String} {given : List (String × LevelValue)} {state : State} :
      State.build name given = .ok state →
      Effect w (.newState name given) { w with store := w.store.addState state }
  | newTransition {source destination : StateId} {given : ConditionSource}
      {condition : Condition} :
      given.condition = .ok condition →
      w.store.HasState source → w.store.HasState destination →
      Effect w (.newTransition source destination given)
        { w with store := w.store.pushTransition { source, destination, condition } }
  | setName {id : StateId} {name : String} :
      w.store.HasState id → isIdentifier name = true →
      Effect w (.setName id name)
        { w with store := w.store.withState id fun s => { s with name } }
  | setOutputs {id : StateId} {given : List (String × LevelValue)} {outputs : Outputs} :
      Outputs.build ∅ given = .ok outputs → w.store.HasState id →
      Effect w (.setOutputs id given)
        { w with store := w.store.withState id fun s => { s with outputs } }
  | setDefault {id : StateId} {value : Bool} :
      w.store.HasState id →
      Effect w (.setDefault id value)
        { w with store := w.store.withState id fun s => { s with isDefault := value } }
  | setCondition {id : TransitionId} {given : ConditionSource} {condition : Condition} :
      given.condition = .ok condition → w.store.HasTransition id →
      Effect w (.setCondition id given)
        { w with store := w.store.withTransition id fun t => { t with condition } }
  | addState {id : StateId} :
      w.store.HasState id →
      Effect w (.addState id false)
        { w with machine := { w.machine with states := w.machine.states.insert id } }
  /-- The new default state is marked as such; an earlier one keeps its mark. -/
  | addDefault {id : StateId} :
      w.store.HasState id →
      Effect w (.addState id true)
        { store := w.store.withState id fun s => { s with isDefault := true }
          machine := { w.machine with
            states := w.machine.states.insert id, defaultState := some id } }
  | addTransition {id : TransitionId} :
      w.store.HasTransition id →
      Effect w (.addTransition id)
        { w with machine := { w.machine with transitions := w.machine.transitions.insert id } }

variable {w w' : World} {e : Edit}

theorem apply_eq_ok_iff : w.apply e = .ok w' ↔ w.Effect e w' := by
  constructor
  · intro h
    cases e with
    | newState name given =>
      simp only [apply, bind_eq_ok_iff, mapError_eq_ok_iff] at h
      obtain ⟨state, hstate, h⟩ := h
      cases h
      exact .newState hstate
    | newTransition source destination given =>
      simp only [apply, bind_eq_ok_iff, Store.addTransition_eq_ok_iff] at h
      obtain ⟨c, hc, _, ⟨hs, hd, rfl⟩, h⟩ := h
      cases h
      exact .newTransition hc hs hd
    | setName id name =>
      simp only [apply, bind_eq_ok_iff, mapError_eq_ok_iff, Store.checkState_eq_ok_iff,
        checkIdentifier_eq_ok_iff, Store.modifyState_eq_ok_iff] at h
      obtain ⟨_, hid, _, hname, _, ⟨-, rfl⟩, h⟩ := h
      cases h
      exact .setName hid hname
    | setOutputs id given =>
      simp only [apply, bind_eq_ok_iff, mapError_eq_ok_iff, Store.modifyState_eq_ok_iff] at h
      obtain ⟨outputs, ho, _, ⟨hid, rfl⟩, h⟩ := h
      cases h
      exact .setOutputs ho hid
    | setDefault id value =>
      simp only [apply, bind_eq_ok_iff, Store.modifyState_eq_ok_iff] at h
      obtain ⟨_, ⟨hid, rfl⟩, h⟩ := h
      cases h
      exact .setDefault hid
    | setCondition id given =>
      simp only [apply, bind_eq_ok_iff, Store.modifyTransition_eq_ok_iff] at h
      obtain ⟨c, hc, _, ⟨hid, rfl⟩, h⟩ := h
      cases h
      exact .setCondition hc hid
    | addState id isDefault =>
      simp only [apply, World.addState, bind_eq_ok_iff, Store.checkState_eq_ok_iff] at h
      obtain ⟨_, hid, h⟩ := h
      cases isDefault with
      | false =>
        cases h
        exact .addState hid
      | true =>
        simp only [if_true, bind_eq_ok_iff, Store.modifyState_eq_ok_iff] at h
        obtain ⟨_, ⟨-, rfl⟩, h⟩ := h
        cases h
        exact .addDefault hid
    | addTransition id =>
      simp only [apply, World.addTransition, bind_eq_ok_iff, Store.checkTransition_eq_ok_iff] at h
      obtain ⟨_, hid, h⟩ := h
      cases h
      exact .addTransition hid
  · intro h
    cases h <;>
      simp only [apply, World.addState, World.addTransition, bind_eq_ok_iff, mapError_eq_ok_iff,
        Store.checkState_eq_ok_iff, Store.checkTransition_eq_ok_iff, checkIdentifier_eq_ok_iff,
        Store.addTransition_eq_ok_iff, Store.modifyState_eq_ok_iff,
        Store.modifyTransition_eq_ok_iff, pure_eq_ok_iff, if_true, if_false, Bool.false_eq_true] <;>
      simp [*]

/-- A step makes the change of its edit or, if that fails, none. -/
theorem step_cases (w : World) (e : Edit) : w.Effect e (w.step e) ∨ w.step e = w := by
  unfold step
  split
  · next w' h => exact .inl (apply_eq_ok_iff.1 h)
  · exact .inr rfl

/-- What all changes preserve holds after every run of edits. -/
theorem run_induction {P : World → Prop}
    (change : ∀ {w w' : World} {e : Edit}, P w → w.Effect e w' → P w') {w : World} (h : P w)
    (es : List Edit) : P (w.run es) := by
  induction es generalizing w with
  | nil => exact h
  | cons e es ih =>
    refine ih ?_
    rcases step_cases w e with he | he
    · exact change h he
    · rw [he]
      exact h

/-! ### Handles -/

/-- All handles in the world refer to what its store holds. -/
structure Closed (w : World) : Prop where
  source : ∀ t ∈ w.store.transitions, w.store.HasState t.source
  destination : ∀ t ∈ w.store.transitions, w.store.HasState t.destination
  states : ∀ id ∈ w.machine.states, w.store.HasState id
  transitions : ∀ id ∈ w.machine.transitions, w.store.HasTransition id
  defaultState : ∀ id, w.machine.defaultState = some id → id ∈ w.machine.states

theorem closed_empty : Closed {} where
  source := by simp
  destination := by simp
  states id h := absurd h (HandleSet.not_mem_empty id)
  transitions id h := absurd h (HandleSet.not_mem_empty id)
  defaultState id h := by simp at h

/-- Changing a state, but not which states there are, breaks no handle. -/
theorem Closed.withState (h : w.Closed) (id : StateId) (f : State → State) :
    Closed { w with store := w.store.withState id f } where
  source t ht := Store.hasState_withState.2 (h.source t ht)
  destination t ht := Store.hasState_withState.2 (h.destination t ht)
  states id hid := Store.hasState_withState.2 (h.states id hid)
  transitions := h.transitions
  defaultState := h.defaultState

/-- Changing a transition breaks no handle if it keeps the two ends. -/
theorem Closed.withTransition (h : w.Closed) (id : TransitionId) {g : Transition → Transition}
    (hs : ∀ t, (g t).source = t.source) (hd : ∀ t, (g t).destination = t.destination) :
    Closed { w with store := w.store.withTransition id g } := by
  have hmem : ∀ t ∈ w.store.transitions.modify id.index g,
      ∃ u ∈ w.store.transitions, t.source = u.source ∧ t.destination = u.destination := by
    intro t ht
    obtain ⟨i, hi⟩ := List.mem_iff_getElem?.1 ht
    simp only [List.getElem?_modify, Option.map_eq_map, Option.map_eq_some_iff] at hi
    obtain ⟨u, hu, rfl⟩ := hi
    refine ⟨u, List.mem_of_getElem? hu, ?_⟩
    split
    · exact ⟨hs u, hd u⟩
    · exact ⟨rfl, rfl⟩
  exact { h with
    source := fun t ht => by
      obtain ⟨u, hu, hus, -⟩ := hmem t ht
      rw [hus]
      exact h.source u hu
    destination := fun t ht => by
      obtain ⟨u, hu, -, hud⟩ := hmem t ht
      rw [hud]
      exact h.destination u hu
    transitions := fun id hid => Store.hasTransition_withTransition.2 (h.transitions id hid) }

theorem Closed.effect (h : w.Closed) (he : w.Effect e w') : w'.Closed := by
  cases he with
  | newState hstate =>
    exact { h with
      source := fun t ht => (h.source t ht).addState
      destination := fun t ht => (h.destination t ht).addState
      states := fun id hid => (h.states id hid).addState }
  | @newTransition source destination given c hc hs hd =>
    refine { h with source := ?_, destination := ?_, transitions := ?_ }
    · intro t ht
      rcases List.mem_append.1 ht with ht | ht
      · exact h.source t ht
      · rw [List.mem_singleton.1 ht]
        exact hs
    · intro t ht
      rcases List.mem_append.1 ht with ht | ht
      · exact h.destination t ht
      · rw [List.mem_singleton.1 ht]
        exact hd
    · exact fun id hid => (h.transitions id hid).pushTransition
  | setName hid hname => exact h.withState _ _
  | setOutputs ho hid => exact h.withState _ _
  | setDefault hid => exact h.withState _ _
  | setCondition hc hid => exact h.withTransition _ (fun _ => rfl) (fun _ => rfl)
  | @addState id hid =>
    refine { h with states := ?_, defaultState := ?_ }
    · intro s hs
      rcases HandleSet.mem_insert.1 hs with rfl | hs
      · exact hid
      · exact h.states s hs
    · exact fun s hs => HandleSet.mem_insert.2 (.inr (h.defaultState s hs))
  | @addDefault id hid =>
    refine { h.withState id _ with states := ?_, defaultState := ?_ }
    · intro s hs
      rw [Store.hasState_withState]
      rcases HandleSet.mem_insert.1 hs with rfl | hs
      · exact hid
      · exact h.states s hs
    · intro s hs
      cases hs
      exact HandleSet.mem_insert.2 (.inl rfl)
  | @addTransition id hid =>
    refine { h with transitions := ?_ }
    intro t ht
    rcases HandleSet.mem_insert.1 ht with rfl | ht
    · exact hid
    · exact h.transitions t ht

/-- Whatever is done to an empty world, and in whatever order, handles stay good. -/
theorem closed_run (es : List Edit) : (run {} es).Closed :=
  run_induction Closed.effect closed_empty es

end World

end Moore
