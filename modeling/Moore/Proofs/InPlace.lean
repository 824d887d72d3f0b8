import Moore.Proofs.Faults
import Moore.Proofs.State

/-
# Edits in place

`World.apply` gives a new world or an error.  Here every edit is written once more as steps
that change one world in place, where an error keeps what was written before it
(`Edit.perform`).  An edit looks at all that it is given before its first write, so after an
error the world is as it was (`outcome_perform`).

`Edit.Fault` lists what can be wrong with an edit, with the error for each case.  An edit fails
exactly if there is such a fault.
-/

namespace Moore

/-! ### Steps in place -/

/-- Steps that write to a world.  What is written before an error stays written. -/
abbrev InPlace := ExceptT ModelError (StateM World)

/-- The outcome of a change that is made as a whole or not at all. -/
def World.wholly (w : World) : Except ModelError World → Except ModelError Unit × World
  | .ok w' => (.ok (), w')
  | .error e => (.error e, w)

namespace InPlace

variable {α : Type}

/-- How steps end, and the world that they leave. -/
def outcome (m : InPlace α) (w : World) : Except ModelError α × World :=
  m.run.run w

/-- Looks at the world without writing to it. -/
def look (f : World → Except ModelError α) : InPlace α := do
  ofExcept (f (← get))

/-- Writes to the world. -/
def write (f : World → World) : InPlace Unit :=
  modify f

/-- Writes to a state, if the store holds it. -/
def writeState (id : StateId) (f : State → State) : InPlace Unit := do
  look (·.store.checkState id)
  write fun w => { w with store := w.store.withState id f }

/-- Writes to a transition, if the store holds it. -/
def writeTransition (id : TransitionId) (f : Transition → Transition) : InPlace Unit := do
  look (·.store.checkTransition id)
  write fun w => { w with store := w.store.withTransition id f }

variable {w : World} {f : World → Except ModelError α} {k : α → InPlace Unit}

theorem outcome_write_bind (g : World → World) (k : Unit → InPlace Unit) (w : World) :
    (write g >>= k).outcome w = (k ()).outcome (g w) :=
  rfl

/-- A look that fails ends the steps, and has not written anything. -/
theorem outcome_look_bind {g : α → Except ModelError World}
    (h : ∀ a, f w = .ok a → (k a).outcome w = w.wholly (g a)) :
    (look f >>= k).outcome w = w.wholly (f w >>= g) := by
  show ((ofExcept (f w) : InPlace α) >>= k).outcome w = _
  cases hf : f w with
  | ok a => exact h a hf
  | error e => rfl

theorem outcome_writeState (id : StateId) (f : State → State) (w : World) :
    (writeState id f).outcome w =
      w.wholly (w.store.modifyState id f >>= fun store => pure { w with store }) := by
  unfold writeState Store.modifyState
  rw [bind_assoc]
  exact outcome_look_bind fun _ _ => rfl

theorem outcome_writeTransition (id : TransitionId) (f : Transition → Transition) (w : World) :
    (writeTransition id f).outcome w =
      w.wholly (w.store.modifyTransition id f >>= fun store => pure { w with store }) := by
  unfold writeTransition Store.modifyTransition
  rw [bind_assoc]
  exact outcome_look_bind fun _ _ => rfl

end InPlace

/-! ### Edits as steps -/

namespace Edit

open InPlace

/-- Performs an edit, one write after the other. -/
def perform : Edit → InPlace Unit
  | .newState name given => do
    let state ← look fun _ => (State.build name given).mapError .expr
    write fun w => { w with store := w.store.addState state }
  | .newTransition source destination given => do
    let condition ← look fun _ => given.condition
    look (·.store.checkState source)
    look (·.store.checkState destination)
    write fun w => { w with
      store := w.store.pushTransition { source, destination, condition } }
  | .setName id name => do
    look (·.store.checkState id)
    look fun _ => (checkIdentifier name).mapError .expr
    writeState id fun s => { s with name }
  | .setOutputs id given => do
    let outputs ← look fun _ => (Outputs.build ∅ given).mapError .expr
    writeState id fun s => { s with outputs }
  | .setDefault id value => writeState id fun s => { s with isDefault := value }
  | .setCondition id given => do
    let condition ← look fun _ => given.condition
    writeTransition id fun t => { t with condition }
  | .addState id isDefault => do
    look (·.store.checkState id)
    write fun w => { w with
      machine := { w.machine with states := w.machine.states.insert id } }
    if isDefault then
      write fun w => { w with machine := { w.machine with defaultState := some id } }
      writeState id fun s => { s with isDefault := true }
  | .addTransition id => do
    look (·.store.checkTransition id)
    write fun w => { w with
      machine := { w.machine with transitions := w.machine.transitions.insert id } }

/-- The writes of an edit come after everything that can fail, so the world that an edit leaves
is the one that it makes or, if it fails, the one that it found. -/
theorem outcome_perform (e : Edit) (w : World) : e.perform.outcome w = w.wholly (w.apply e) := by
  cases e with
  | newState name given => exact outcome_look_bind fun state _ => rfl
  | newTransition source destination given =>
    refine outcome_look_bind fun condition _ => ?_
    unfold Store.addTransition
    simp only [bind_assoc]
    exact outcome_look_bind fun _ _ => outcome_look_bind fun _ _ => rfl
  | setName id name =>
    exact outcome_look_bind fun _ _ => outcome_look_bind fun _ _ => outcome_writeState id _ w
  | setOutputs id given => exact outcome_look_bind fun outputs _ => outcome_writeState id _ w
  | setDefault id value => exact outcome_writeState id _ w
  | setCondition id given =>
    exact outcome_look_bind fun condition _ => outcome_writeTransition id _ w
  | addState id isDefault =>
    refine outcome_look_bind fun _ hid => ?_
    cases isDefault with
    | false => rfl
    | true =>
      -- The machine is written first, and the store, in which the state was found, only then.
      have hstored : w.store.modifyState id (fun s => { s with isDefault := true }) =
          .ok (w.store.withState id fun s => { s with isDefault := true }) :=
        Store.modifyState_eq_ok_iff.2 ⟨Store.checkState_eq_ok_iff.1 hid, rfl⟩
      rw [outcome_write_bind, if_pos rfl, outcome_write_bind, outcome_writeState, hstored,
        if_pos rfl]
      rfl
  | addTransition id => exact outcome_look_bind fun _ _ => rfl

end Edit

/-! ### Faults -/

/-- The value is one of those that stand for a level. -/
def LevelValue.IsLevel : LevelValue → Prop
  | .int n => n = 0 ∨ n = 1
  | .text s => s = "0" ∨ s = "1"
  | .bool _ => True

/-- The value as errors show it. -/
def LevelValue.shown : LevelValue → String
  | .int n => toString n
  | .text s => s
  | .bool b => toString b

/-- The text that is to be read as a condition, if there is one. -/
def ConditionSource.texts : ConditionSource → List String
  | text s => [s]
  | built _ => []

namespace Edit

/-- The states that an edit refers to. -/
@[simp] def states : Edit → List StateId
  | newTransition source destination _ => [source, destination]
  | setName id _ | setOutputs id _ | setDefault id _ | addState id _ => [id]
  | newState .. | setCondition .. | addTransition _ => []

/-- The transitions that an edit refers to. -/
@[simp] def transitions : Edit → List TransitionId
  | setCondition id _ | addTransition id => [id]
  | _ => []

/-- The names that an edit gives to states and outputs. -/
@[simp] def names : Edit → List String
  | newState name given => name :: given.map (·.1)
  | setName _ name => [name]
  | setOutputs _ given => given.map (·.1)
  | _ => []

/-- The values that an edit gives to outputs. -/
@[simp] def values : Edit → List LevelValue
  | newState _ given | setOutputs _ given => given.map (·.2)
  | _ => []

/-- The texts that an edit gives for conditions. -/
@[simp] def texts : Edit → List String
  | newTransition _ _ given | setCondition _ given => given.texts
  | _ => []

/-- What is wrong with an edit, and the error that says so. -/
inductive Fault (e : Edit) (w : World) : ModelError → Prop where
  | unknownState {id : StateId} :
      id ∈ e.states → ¬w.store.HasState id → Fault e w (.unknownState id)
  | unknownTransition {id : TransitionId} :
      id ∈ e.transitions → ¬w.store.HasTransition id → Fault e w (.unknownTransition id)
  | badName {name : String} :
      name ∈ e.names → isIdentifier name = false → Fault e w (.expr (.invalidIdentifier name))
  | badValue {value : LevelValue} :
      value ∈ e.values → ¬value.IsLevel → Fault e w (.expr (.invalidValue value.shown))
  | badText {text : String} {reason : ExprError} :
      text ∈ e.texts → Expr.parse text = .error reason → Fault e w (.condition text reason)

end Edit

/-! ### Errors of the parts of an edit -/

theorem checkIdentifier_eq_error_iff {name : String} {e : ExprError} :
    checkIdentifier name = .error e ↔ isIdentifier name = false ∧ e = .invalidIdentifier name := by
  unfold checkIdentifier
  by_cases h : isIdentifier name = true
  · simp [h]
  · simp [h, eq_comm]

theorem LevelValue.level_eq_error_iff {value : LevelValue} {e : ExprError} :
    value.level = .error e ↔ ¬value.IsLevel ∧ e = .invalidValue value.shown := by
  cases value with
  | int n =>
    by_cases h0 : n = 0
    · simp [level, IsLevel, Level.ofInt?, h0]
    · by_cases h1 : n = 1
      · simp [level, IsLevel, Level.ofInt?, h1]
      · simp [level, IsLevel, Level.ofInt?, shown, h0, h1, eq_comm]
  | text s =>
    by_cases h0 : s = "0"
    · simp [level, IsLevel, Level.ofText?, h0]
    · by_cases h1 : s = "1"
      · simp [level, IsLevel, Level.ofText?, h1]
      · simp [level, IsLevel, Level.ofText?, shown, h0, h1, eq_comm]
  | bool b => simp [level, IsLevel]

theorem ConditionSource.condition_eq_error_iff {given : ConditionSource} {e : ModelError} :
    given.condition = .error e ↔ ∃ text ∈ given.texts, Condition.parse text = .error e := by
  cases given with
  | text text => simp [condition, texts]
  | built c => simp [condition, texts]

namespace Store

variable {s : Store} {id : StateId} {tid : TransitionId} {e : ModelError}

theorem checkState_eq_error_iff :
    s.checkState id = .error e ↔ ¬s.HasState id ∧ e = .unknownState id := by
  by_cases h : id.index < s.states.length
  · simp [checkState, HasState, h]
  · simp [checkState, HasState, h, eq_comm]

theorem checkTransition_eq_error_iff :
    s.checkTransition tid = .error e ↔ ¬s.HasTransition tid ∧ e = .unknownTransition tid := by
  by_cases h : tid.index < s.transitions.length
  · simp [checkTransition, HasTransition, h]
  · simp [checkTransition, HasTransition, h, eq_comm]

end Store

/-! ### When an edit fails -/

/-- The faults of outputs, in the order in which they are set. -/
def Outputs.faults (given : List (String × LevelValue)) : List ExprError :=
  given.flatMap fun pair => faultsOf pair.2.level ++ faultsOf (checkIdentifier pair.1)

theorem Outputs.settles_build (outputs : Outputs) (given : List (String × LevelValue)) :
    Settles (faults given) (fun _ => True) (build outputs given) := by
  induction given generalizing outputs with
  | nil => exact .ok rfl trivial
  | cons pair rest ih =>
    obtain ⟨name, value⟩ := pair
    show Settles (faultsOf value.level ++ faultsOf (checkIdentifier name) ++ faults rest) _ _
    rw [List.append_assoc]
    refine (Settles.of_check value.level).bind fun level _ => ?_
    exact (Settles.of_check (checkIdentifier name)).bind fun _ _ => ih (outputs.insert name level)

namespace Edit

variable {e : Edit} {w : World} {err : ModelError}

/-- The faults of an edit, in the order in which they are looked for. -/
def faults (w : World) : Edit → List ModelError
  | newState name given =>
    (faultsOf (checkIdentifier name) ++ Outputs.faults given).map .expr
  | newTransition source destination given =>
    faultsOf given.condition ++
      (faultsOf (w.store.checkState source) ++ faultsOf (w.store.checkState destination))
  | setName id name =>
    faultsOf (w.store.checkState id) ++ (faultsOf (checkIdentifier name)).map .expr
  | setOutputs id given =>
    (Outputs.faults given).map .expr ++ faultsOf (w.store.checkState id)
  | setCondition id given =>
    faultsOf given.condition ++ faultsOf (w.store.checkTransition id)
  | setDefault id _ | addState id _ => faultsOf (w.store.checkState id)
  | addTransition id => faultsOf (w.store.checkTransition id)

/-- An edit fails with its first fault. -/
theorem settles_apply (e : Edit) (w : World) :
    Settles (e.faults w) (fun _ => True) (w.apply e) := by
  have hstate : ∀ id f, Settles (faultsOf (w.store.checkState id)) (fun _ => True)
      (w.store.modifyState id f) := fun id f => (Settles.of_check _).bind_pure _
  cases e with
  | newState name given =>
    have hbuild : Settles (faultsOf (checkIdentifier name) ++ Outputs.faults given)
        (fun _ => True) (State.build name given) :=
      (Settles.of_check _).bind fun _ _ => (Outputs.settles_build ∅ given).bind_pure _
    exact (hbuild.mapError ModelError.expr).bind_pure _
  | newTransition source destination given =>
    have hends : ∀ condition, Settles
        (faultsOf (w.store.checkState source) ++ faultsOf (w.store.checkState destination))
        (fun _ => True) (w.store.addTransition { source, destination, condition }) :=
      fun _ => (Settles.of_check _).bind fun _ _ => (Settles.of_check _).bind_pure _
    exact (Settles.of_check _).bind fun condition _ => (hends condition).bind_pure _
  | setName id name =>
    refine (Settles.of_check _).bind fun _ hid => ?_
    rw [← List.append_nil ((faultsOf _).map _)]
    refine ((Settles.of_check _).mapError ModelError.expr).bind fun _ _ => ?_
    have hstored := hstate id fun s => { s with name }
    rw [hid] at hstored
    exact hstored.bind_pure _
  | setOutputs id given =>
    exact ((Outputs.settles_build ∅ given).mapError ModelError.expr).bind fun _ _ =>
      (hstate id _).bind_pure _
  | setDefault id value => exact (hstate id _).bind_pure _
  | setCondition id given =>
    refine (Settles.of_check _).bind fun condition _ => ?_
    exact ((Settles.of_check _).bind_pure _ : Settles (faultsOf (w.store.checkTransition id)) _
      (w.store.modifyTransition id _)).bind_pure _
  | addState id isDefault =>
    rw [faults, ← List.append_nil (faultsOf _)]
    refine (Settles.of_check _).bind fun _ hid => ?_
    cases isDefault with
    | false => exact .ok rfl trivial
    | true =>
      have hstored := hstate id fun s => { s with isDefault := true }
      rw [hid] at hstored
      exact hstored.bind_pure _
  | addTransition id => exact (Settles.of_check _).bind_pure _

/-- Each fault is the error of one of the checks. -/
theorem fault_iff : e.Fault w err ↔
    (∃ id ∈ e.states, w.store.checkState id = .error err) ∨
    (∃ id ∈ e.transitions, w.store.checkTransition id = .error err) ∨
    (∃ name ∈ e.names, ∃ x, checkIdentifier name = .error x ∧ .expr x = err) ∨
    (∃ value ∈ e.values, ∃ x, value.level = .error x ∧ .expr x = err) ∨
    ∃ text ∈ e.texts, Condition.parse text = .error err := by
  simp only [Store.checkState_eq_error_iff, Store.checkTransition_eq_error_iff,
    checkIdentifier_eq_error_iff, LevelValue.level_eq_error_iff, Condition.parse,
    mapError_eq_error_iff]
  constructor
  · intro h
    cases h with
    | unknownState hmem hid => exact .inl ⟨_, hmem, hid, rfl⟩
    | unknownTransition hmem hid => exact .inr (.inl ⟨_, hmem, hid, rfl⟩)
    | badName hmem hname => exact .inr (.inr (.inl ⟨_, hmem, _, ⟨hname, rfl⟩, rfl⟩))
    | badValue hmem hvalue => exact .inr (.inr (.inr (.inl ⟨_, hmem, _, ⟨hvalue, rfl⟩, rfl⟩)))
    | badText hmem hparse => exact .inr (.inr (.inr (.inr ⟨_, hmem, _, hparse, rfl⟩)))
  · rintro (⟨_, hmem, hid, rfl⟩ | ⟨_, hmem, hid, rfl⟩ | ⟨_, hmem, _, ⟨hname, rfl⟩, rfl⟩ |
      ⟨_, hmem, _, ⟨hvalue, rfl⟩, rfl⟩ | ⟨_, hmem, _, hparse, rfl⟩)
    · exact .unknownState hmem hid
    · exact .unknownTransition hmem hid
    · exact .badName hmem hname
    · exact .badValue hmem hvalue
    · exact .badText hmem hparse

theorem mem_map_outputFaults {given : List (String × LevelValue)} :
    err ∈ (Outputs.faults given).map .expr ↔
      (∃ name ∈ given.map (·.1), ∃ x, checkIdentifier name = .error x ∧ .expr x = err) ∨
        ∃ value ∈ given.map (·.2), ∃ x, value.level = .error x ∧ .expr x = err := by
  simp only [Outputs.faults, List.mem_flatMap, List.mem_append, mem_faultsOf, List.mem_map]
  constructor
  · rintro ⟨x, ⟨pair, hpair, hvalue | hname⟩, hx⟩
    · exact .inr ⟨_, ⟨pair, hpair, rfl⟩, x, hvalue, hx⟩
    · exact .inl ⟨_, ⟨pair, hpair, rfl⟩, x, hname, hx⟩
  · rintro (⟨_, ⟨pair, hpair, rfl⟩, x, hname, hx⟩ | ⟨_, ⟨pair, hpair, rfl⟩, x, hvalue, hx⟩)
    · exact ⟨x, ⟨pair, hpair, .inr hname⟩, hx⟩
    · exact ⟨x, ⟨pair, hpair, .inl hvalue⟩, hx⟩

/-- What is in the list of faults is what is wrong with the edit. -/
theorem mem_faults_iff : err ∈ e.faults w ↔ e.Fault w err := by
  rw [fault_iff]
  cases e with
  | newState name given =>
    rw [faults, List.map_append, List.mem_append, mem_map_outputFaults]
    simp [or_assoc]
  | newTransition source destination given =>
    simp [faults, ConditionSource.condition_eq_error_iff, or_comm]
  | setName id name => simp [faults]
  | setOutputs id given =>
    rw [faults, List.mem_append, mem_map_outputFaults]
    simp [or_comm]
  | setDefault id value => simp [faults]
  | setCondition id given => simp [faults, ConditionSource.condition_eq_error_iff, or_comm]
  | addState id isDefault => simp [faults]
  | addTransition id => simp [faults]

end Edit

namespace World

/-- An edit that fails leaves no trace.  Performed in place it ends with an error exactly if
something is wrong with it, and the error says what; store and machine are then as they were.
Otherwise it leaves the world that `apply` gives. -/
theorem failed_edit_leaves_no_trace (w : World) (e : Edit) :
    (∀ err, (e.perform.outcome w).1 = .error err →
        (e.perform.outcome w).2 = w ∧ e.Fault w err ∧ (e.faults w).head? = some err) ∧
      ((∃ err, (e.perform.outcome w).1 = .error err) ↔ ∃ err, e.Fault w err) ∧
      ((e.perform.outcome w).1 = .ok () → w.apply e = .ok (e.perform.outcome w).2) := by
  have hsettles := e.settles_apply w
  have hfault : (∃ err, e.Fault w err) ↔ e.faults w ≠ [] := by
    simp only [← Edit.mem_faults_iff, ne_eq, List.eq_nil_iff_forall_not_mem, not_forall, not_not]
  rw [e.outcome_perform w, hfault]
  cases happly : w.apply e with
  | ok w' =>
    have hnone : e.faults w = [] := hsettles.exists_ok_iff.1 ⟨w', happly⟩
    refine ⟨fun err herr => ?_, iff_of_false ?_ (not_not_intro hnone), fun _ => rfl⟩
    · cases herr
    · rintro ⟨err, herr⟩
      cases herr
  | error err =>
    have hfirst : (e.faults w).head? = some err := hsettles.eq_error_iff.1 happly
    have hmem : err ∈ e.faults w := List.mem_of_head? hfirst
    refine ⟨fun err' herr => ?_, iff_of_true ⟨err, rfl⟩ (List.ne_nil_of_mem hmem), fun hok => ?_⟩
    · cases herr
      exact ⟨rfl, Edit.mem_faults_iff.1 hmem, hfirst⟩
    · cases hok

/-- A state whose second output has a bad name is not stored with its first one, and a state
that is not stored does not become the default one. -/
theorem half_given_state_refused :
    let w := run {} [.newState "off" [], .addState ⟨0⟩ true]
    let lamp : Edit := .newState "lamp" [("u", .int 1), ("and", .bool true), ("v", .text "2")]
    let register : Edit := .addState ⟨1⟩ true
    lamp.perform.outcome w = (.error (.expr (.invalidIdentifier "and")), w) ∧
      lamp.Fault w (.expr (.invalidIdentifier "and")) ∧
      register.perform.outcome w = (.error (.unknownState ⟨1⟩), w) := by
  intro w lamp register
  have hlamp : (lamp.perform.outcome w).1 = .error (.expr (.invalidIdentifier "and")) := by decide
  have hregister : (register.perform.outcome w).1 = .error (.unknownState ⟨1⟩) := by decide
  obtain ⟨hkept, hfault, -⟩ := (failed_edit_leaves_no_trace w lamp).1 _ hlamp
  obtain ⟨hsame, -, -⟩ := (failed_edit_leaves_no_trace w register).1 _ hregister
  exact ⟨Prod.ext hlamp hkept, hfault, Prod.ext hregister hsame⟩

end World

end Moore
