import Moore.Proofs.World

/-
# Names in states

Names of states and outputs are looked at wherever one is set, so a state that was built has
only identifiers (`State.Named`).
-/

namespace Moore

namespace NameMap

variable {β : Type}

theorem mem_names_insert {m : NameMap β} {name other : String} {value : β} :
    other ∈ (m.insert name value).names ↔ other = name ∨ other ∈ m.names := by
  rw [mem_names, mem_names, get?_insert]
  by_cases h : other = name
  · simp [h]
  · simp [h]

theorem not_mem_names_empty (name : String) : name ∉ (∅ : NameMap β).names :=
  List.not_mem_nil

end NameMap

namespace Outputs

variable {outputs built : Outputs}

/-- The names of all outputs are identifiers. -/
def Named (outputs : Outputs) : Prop :=
  ∀ name ∈ outputs.names, isIdentifier name = true

instance (outputs : Outputs) : Decidable outputs.Named :=
  inferInstanceAs (Decidable (∀ name ∈ outputs.names, isIdentifier name = true))

theorem named_empty : Named ∅ := by
  intro name hname
  exact absurd hname (NameMap.not_mem_names_empty name)

theorem Named.insert (h : outputs.Named) {name : String} (hname : isIdentifier name = true)
    (level : Level) : Named (outputs.insert name level) := by
  intro other hother
  rcases NameMap.mem_names_insert.1 hother with rfl | hother
  · exact hname
  · exact h other hother

theorem check_eq_ok_iff {u : Unit} : outputs.check = .ok u ↔ outputs.Named := by
  unfold check
  rw [forM_eq_ok_iff]
  simp only [checkIdentifier_eq_ok_iff]
  rfl

theorem Named.build (h : outputs.Named) {given : List (String × LevelValue)}
    (hbuilt : Outputs.build outputs given = .ok built) : built.Named := by
  induction given generalizing outputs with
  | nil =>
    cases hbuilt
    exact h
  | cons pair rest ih =>
    obtain ⟨name, value⟩ := pair
    simp only [Outputs.build, bind_eq_ok_iff, checkIdentifier_eq_ok_iff] at hbuilt
    obtain ⟨level, -, -, hname, hrest⟩ := hbuilt
    exact ih (h.insert hname level) hrest

end Outputs

/-- The names of a state and of its outputs are identifiers. -/
structure State.Named (s : State) : Prop where
  name : isIdentifier s.name = true
  outputs : s.outputs.Named

theorem State.named_of_build {name : String} {given : List (String × LevelValue)} {s : State}
    (h : build name given = .ok s) : s.Named := by
  simp only [build, bind_eq_ok_iff, checkIdentifier_eq_ok_iff, pure_eq_ok_iff] at h
  obtain ⟨-, hname, outputs, houtputs, rfl⟩ := h
  exact ⟨hname, Outputs.named_empty.build houtputs⟩

namespace World

variable {w w' : World} {e : Edit}

/-- All states of the store are named by identifiers. -/
def Named (w : World) : Prop :=
  ∀ s ∈ w.store.states, s.Named

theorem Named.withState (h : w.Named) (id : StateId) {f : State → State}
    (hf : ∀ s, s.Named → (f s).Named) : ∀ s ∈ (w.store.withState id f).states, s.Named := by
  intro s hs
  obtain ⟨i, hi⟩ := List.mem_iff_getElem?.1 hs
  simp only [Store.withState, List.getElem?_modify, Option.map_eq_map,
    Option.map_eq_some_iff] at hi
  obtain ⟨u, hu, rfl⟩ := hi
  have hnamed := h u (List.mem_of_getElem? hu)
  split
  · exact hf u hnamed
  · exact hnamed

theorem Named.effect (h : w.Named) (he : w.Effect e w') : w'.Named := by
  cases he with
  | newState hstate =>
    intro s hs
    rcases List.mem_append.1 hs with hs | hs
    · exact h s hs
    · rw [List.mem_singleton.1 hs]
      exact State.named_of_build hstate
  | newTransition hc hs hd => exact h
  | setName hid hname => exact h.withState _ fun s hs => ⟨hname, hs.outputs⟩
  | setOutputs ho hid =>
    exact h.withState _ fun s hs => ⟨hs.name, Outputs.named_empty.build ho⟩
  | setDefault hid => exact h.withState _ fun s hs => ⟨hs.name, hs.outputs⟩
  | setCondition hc hid => exact h
  | addState hid => exact h
  | addDefault hid => exact h.withState _ fun s hs => ⟨hs.name, hs.outputs⟩
  | addTransition hid => exact h

/-- Whatever is done to an empty world, and in whatever order, its states have good names. -/
theorem named_run (es : List Edit) : (run {} es).Named :=
  run_induction Named.effect (fun _ hs => absurd hs List.not_mem_nil) es

end World

end Moore
