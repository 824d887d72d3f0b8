import Moore.NameMap

/-
# Assignments

An assignment gives every input a truth value.  A finite map from names to truth values
says part of one: it is extended by the assignments that agree with it.  Bindings are such
maps, and so are terms, which hold under an assignment exactly if it extends them.
-/

namespace Moore.NameMap

/-- The assignment that follows the map, and `σ` on names without an entry. -/
def override (m : NameMap Bool) (σ : String → Bool) : String → Bool := fun x =>
  (m.get? x).getD (σ x)

/-- The assignment gives every name of the map its value. -/
def ExtendedBy (m : NameMap Bool) (σ : String → Bool) : Prop :=
  ∀ x v, m.get? x = some v → σ x = v

/-- The second map holds every entry of the first. -/
def KeptBy {β : Type} (b b' : NameMap β) : Prop :=
  ∀ x v, b.get? x = some v → b'.get? x = some v

variable {m n : NameMap Bool} {σ : String → Bool}

theorem extendedBy_override (m : NameMap Bool) (σ : String → Bool) :
    m.ExtendedBy (m.override σ) := by
  intro x v h
  simp [override, h]

/-- Overriding by the map does not change an assignment that extends it. -/
theorem ExtendedBy.override_eq (h : m.ExtendedBy σ) : m.override σ = σ := by
  funext x
  cases hx : m.get? x with
  | none => simp [override, hx]
  | some v => simp [override, hx, h x v hx]

/-! ### Maps that hold each other's entries -/

theorem keptBy_empty (m : NameMap Bool) : (∅ : NameMap Bool).KeptBy m := by
  intro x v h
  simp at h

theorem KeptBy.refl (m : NameMap Bool) : m.KeptBy m :=
  fun _ _ h => h

theorem KeptBy.trans {k : NameMap Bool} (h : m.KeptBy n) (hn : n.KeptBy k) : m.KeptBy k :=
  fun x v hx => hn x v (h x v hx)

theorem KeptBy.extendedBy (hm : m.KeptBy n) (h : n.ExtendedBy σ) : m.ExtendedBy σ :=
  fun x v hx => h x v (hm x v hx)

/-! ### Assignments cut down to a list of names -/

/-- The values that an assignment gives to some names. -/
def ofAssignment (σ : String → Bool) (xs : List String) : NameMap Bool :=
  ofList (xs.map fun x => (x, σ x))

theorem get?_ofAssignment (σ : String → Bool) (xs : List String) (y : String) :
    (ofAssignment σ xs).get? y = if y ∈ xs then some (σ y) else none := by
  have hfold : ∀ m : NameMap Bool,
      ((xs.map fun x => (x, σ x)).foldl (fun m e => m.insert e.1 e.2) m).get? y =
        if y ∈ xs then some (σ y) else m.get? y := by
    induction xs with
    | nil => simp
    | cons x xs ih =>
      intro m
      rw [List.map_cons, List.foldl_cons, ih, get?_insert]
      by_cases hxs : y ∈ xs
      · simp [hxs]
      · by_cases hx : y = x
        · simp [hx]
        · simp [hxs, hx]
  exact hfold ∅

theorem mem_names_ofAssignment {x : String} {xs : List String} (h : x ∈ xs) :
    x ∈ (ofAssignment σ xs).names :=
  mem_names.2 ⟨σ x, by rw [get?_ofAssignment, if_pos h]⟩

theorem extendedBy_ofAssignment (σ : String → Bool) (xs : List String) :
    (ofAssignment σ xs).ExtendedBy σ := by
  intro x v hv
  rw [get?_ofAssignment, Option.ite_none_right_eq_some] at hv
  exact Option.some.inj hv.2

/-! ### Entries -/

theorem extendedBy_iff_entries : m.ExtendedBy σ ↔ ∀ l ∈ m.entries, σ l.1 = l.2 := by
  constructor
  · intro h l hl
    exact h l.1 l.2 (get?_eq_some_iff.2 hl)
  · intro h x v hx
    exact h (x, v) (get?_eq_some_iff.1 hx)

theorem keptBy_iff_entries : m.KeptBy n ↔ ∀ l ∈ m.entries, n.get? l.1 = some l.2 := by
  constructor
  · intro h l hl
    exact h l.1 l.2 (get?_eq_some_iff.2 hl)
  · intro h x v hx
    exact h (x, v) (get?_eq_some_iff.1 hx)

end Moore.NameMap
