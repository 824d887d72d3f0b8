import Moore.Proofs.World

/-
# The history of an entity

A handle keeps referring to what it was given out for, and only the edits that name it change
that.  A `Place` is one handle of a store with what edits do there: the edit that fills it and
those that change its content.  `Place.read_run_iff` follows a place over a run: what stands
there in the end was put there by one edit and went through the later changes of that place,
whatever was done elsewhere in between.
-/

namespace Moore

namespace World

/-- The edits of a run that succeed. -/
def accepted (w : World) : List Edit → List Edit
  | [] => []
  | e :: es =>
    match w.apply e with
    | .ok w' => e :: w'.accepted es
    | .error _ => w.accepted es

variable {w w' : World} {e : Edit}

theorem step_of_effect (h : w.Effect e w') : w.step e = w' := by
  unfold step
  rw [apply_eq_ok_iff.2 h]

theorem run_cons (w : World) (e : Edit) (es : List Edit) : w.run (e :: es) = (w.step e).run es :=
  rfl

theorem run_append (w : World) (es fs : List Edit) : w.run (es ++ fs) = (w.run es).run fs :=
  List.foldl_append

end World

/-! ### Places -/

/-- A place of a store, by what edits do there. -/
structure Place (α : Type) where
  read : World → Option α
  /-- An edit succeeds and fills the place. -/
  Fills : World → Edit → α → Prop
  /-- What an edit that names the place makes of its content. -/
  change? : Edit → Option (α → α)
  read_empty : read {} = none
  read_of_fills : ∀ {w : World} {e : Edit} {a : α},
    Fills w e a → read w = none ∧ read (w.step e) = some a
  fills_of_read : ∀ {w w' : World} {e : Edit} {a : α},
    w.Effect e w' → read w = none → read w' = some a → Fills w e a
  read_effect : ∀ {w w' : World} {e : Edit} {a : α},
    w.Effect e w' → read w = some a → read w' = some ((change? e).elim a (· a))

namespace Place

variable {α : Type} (p : Place α)

/-- The content of a place after edits that succeed one after the other. -/
def replay (a : α) (es : List Edit) : α :=
  (es.filterMap p.change?).foldl (fun a f => f a) a

theorem replay_cons (a : α) (e : Edit) (es : List Edit) :
    p.replay a (e :: es) = p.replay ((p.change? e).elim a (· a)) es := by
  unfold replay
  rw [List.filterMap_cons]
  cases p.change? e with
  | none => rfl
  | some f => rfl

variable {p} {w : World} {a : α}

/-- What stands at a place goes through the changes of that place. -/
theorem read_run (h : p.read w = some a) (es : List Edit) :
    p.read (w.run es) = some (p.replay a (w.accepted es)) := by
  induction es generalizing w a with
  | nil => exact h
  | cons e es ih =>
    rw [World.run_cons]
    unfold World.accepted World.step
    cases happly : w.apply e with
    | ok w' =>
      rw [replay_cons]
      exact ih (p.read_effect (World.apply_eq_ok_iff.1 happly) h)
    | error err => exact ih h

/-- Edits that do not name a place leave its content alone. -/
theorem read_run_of_unnamed (h : p.read w = some a) {es : List Edit}
    (hes : ∀ e ∈ es, p.change? e = none) : p.read (w.run es) = some a := by
  induction es generalizing w with
  | nil => exact h
  | cons e es ih =>
    obtain ⟨hnone, htail⟩ := List.forall_mem_cons.1 hes
    rw [World.run_cons]
    refine ih ?_ htail
    rcases World.step_cases w e with he | he
    · rw [p.read_effect he h, hnone]
      rfl
    · rw [he]
      exact h

/-- What stands at a place was put there by an edit of the run. -/
theorem exists_fills {es : List Edit} (hw : p.read w = none) (h : p.read (w.run es) = some a) :
    ∃ before e later created, es = before ++ e :: later ∧ p.Fills (w.run before) e created := by
  induction es generalizing w with
  | nil =>
    rw [World.run, List.foldl_nil, hw] at h
    cases h
  | cons e es ih =>
    cases hread : p.read (w.step e) with
    | none =>
      obtain ⟨before, e', later, created, rfl, hfills⟩ := ih hread h
      exact ⟨e :: before, e', later, created, rfl, hfills⟩
    | some created =>
      refine ⟨[], e, es, created, rfl, ?_⟩
      rcases World.step_cases w e with he | he
      · exact p.fills_of_read he hw hread
      · rw [he, hw] at hread
        cases hread

/-- The content of a place after a run is what filled it, changed by the later edits of that
place that succeeded. -/
theorem read_run_iff {es : List Edit} : p.read (World.run {} es) = some a ↔
    ∃ before e later created, es = before ++ e :: later ∧
      p.Fills (World.run {} before) e created ∧
      a = p.replay created ((World.run {} (before ++ [e])).accepted later) := by
  have hkept : ∀ before e later created, p.Fills (World.run {} before) e created →
      p.read (World.run {} (before ++ e :: later)) =
        some (p.replay created ((World.run {} (before ++ [e])).accepted later)) := by
    intro before e later created hfills
    have hread := (p.read_of_fills hfills).2
    rw [World.run_append, World.run_cons, World.run_append]
    exact read_run hread later
  constructor
  · intro h
    obtain ⟨before, e, later, created, rfl, hfills⟩ := exists_fills p.read_empty h
    rw [hkept before e later created hfills] at h
    exact ⟨before, e, later, created, rfl, hfills, (Option.some.inj h).symm⟩
  · rintro ⟨before, e, later, created, rfl, hfills, rfl⟩
    exact hkept before e later created hfills

end Place

/-! ### States and transitions -/

namespace Edit

/-- What an edit that names a state makes of it. -/
def stateChange? (id : StateId) : Edit → Option (State → State)
  | setName named name => if named = id then some fun s => { s with name } else none
  | setOutputs named given =>
    match Outputs.build ∅ given with
    | .ok outputs => if named = id then some fun s => { s with outputs } else none
    | .error _ => none
  | setDefault named isDefault => if named = id then some fun s => { s with isDefault } else none
  | addState named true =>
    if named = id then some fun s => { s with isDefault := true } else none
  | _ => none

/-- What an edit that names a transition makes of it. -/
def transitionChange? (id : TransitionId) : Edit → Option (Transition → Transition)
  | setCondition named given =>
    match given.condition with
    | .ok condition => if named = id then some fun t => { t with condition } else none
    | .error _ => none
  | _ => none

end Edit

/-- Storing one more entity leaves the others where they are. -/
theorem getElem?_append_singleton {α : Type} (l : List α) (a : α) (i : Nat) :
    (l ++ [a])[i]? = if l.length = i then some a else l[i]? := by
  by_cases h : l.length = i
  · rw [if_pos h, ← h]
    exact List.getElem?_concat_length
  · rw [if_neg h]
    rcases Nat.lt_or_gt_of_ne h with hlt | hgt
    · have hle : (l ++ [a]).length ≤ i := by
        rw [List.length_append]
        exact hlt
      rw [List.getElem?_eq_none hle, List.getElem?_eq_none (Nat.le_of_lt hlt)]
    · exact List.getElem?_append_left hgt

namespace Store

variable {s : Store} {id named : StateId} {tid tnamed : TransitionId}

theorem nextState_eq_iff : s.nextState = id ↔ s.states.length = id.index := by
  cases id
  simp [nextState]

theorem nextTransition_eq_iff : s.nextTransition = tid ↔ s.transitions.length = tid.index := by
  cases tid
  simp [nextTransition]

theorem state?_addState (state : State) :
    (s.addState state).state? id = if s.nextState = id then some state else s.state? id := by
  simp only [nextState_eq_iff]
  exact getElem?_append_singleton s.states state id.index

theorem transition?_pushTransition (t : Transition) : (s.pushTransition t).transition? tid =
    if s.nextTransition = tid then some t else s.transition? tid := by
  simp only [nextTransition_eq_iff]
  exact getElem?_append_singleton s.transitions t tid.index

theorem state?_withState (f : State → State) : (s.withState named f).state? id =
    (s.state? id).map fun state => if named = id then f state else state := by
  have hindex : named.index = id.index ↔ named = id := by
    cases named
    cases id
    simp
  simp only [state?, withState, List.getElem?_modify, hindex]
  rfl

theorem transition?_withTransition (f : Transition → Transition) :
    (s.withTransition tnamed f).transition? tid =
      (s.transition? tid).map fun t => if tnamed = tid then f t else t := by
  have hindex : tnamed.index = tid.index ↔ tnamed = tid := by
    cases tnamed
    cases tid
    simp
  simp only [transition?, withTransition, List.getElem?_modify, hindex]
  rfl

theorem state?_nextState : s.state? s.nextState = none :=
  List.getElem?_eq_none (Nat.le_refl _)

theorem transition?_nextTransition : s.transition? s.nextTransition = none :=
  List.getElem?_eq_none (Nat.le_refl _)

end Store

theorem elim_ite_some {α : Type} (c : Prop) [Decidable c] (f : α → α) (a : α) :
    (if c then some f else none).elim a (· a) = if c then f a else a := by
  by_cases h : c
  · simp [h]
  · simp [h]

namespace Place

/-- The place of a state. -/
def state (id : StateId) : Place State where
  read w := w.store.state? id
  Fills w e created := ∃ name given, e = .newState name given ∧ w.store.nextState = id ∧
    State.build name given = .ok created
  change? := Edit.stateChange? id
  read_empty := rfl
  read_of_fills := by
    rintro w e created ⟨name, given, rfl, rfl, hbuild⟩
    refine ⟨Store.state?_nextState, ?_⟩
    rw [World.step_of_effect (.newState hbuild), Store.state?_addState, if_pos rfl]
  fills_of_read := by
    intro w w' e created he hnone hread
    cases he with
    | @newState name given built hbuild =>
      rw [Store.state?_addState, hnone] at hread
      obtain ⟨hid, rfl⟩ : w.store.nextState = id ∧ built = created := by simpa using hread
      exact ⟨name, given, rfl, hid, hbuild⟩
    | newTransition | setCondition | addState | addTransition =>
      rw [show w.store.state? id = some created from hread] at hnone
      cases hnone
    | setName | setOutputs | setDefault | addDefault =>
      rw [Store.state?_withState, hnone] at hread
      cases hread
  read_effect := by
    intro w w' e s he hread
    cases he with
    | newState hbuild =>
      rw [Store.state?_addState, if_neg, hread]
      · rfl
      · rintro rfl
        rw [Store.state?_nextState] at hread
        cases hread
    | newTransition | setCondition | addState | addTransition => exact hread
    | setName | setDefault | addDefault =>
      rw [Store.state?_withState, hread, Edit.stateChange?, elim_ite_some]
      rfl
    | setOutputs hbuild =>
      simp only [Store.state?_withState, hread, Edit.stateChange?, hbuild, elim_ite_some]
      rfl

/-- The place of a transition. -/
def transition (id : TransitionId) : Place Transition where
  read w := w.store.transition? id
  Fills w e created := ∃ source destination given condition,
    e = .newTransition source destination given ∧ w.store.nextTransition = id ∧
      w.store.HasState source ∧ w.store.HasState destination ∧
      given.condition = .ok condition ∧ created = { source, destination, condition }
  change? := Edit.transitionChange? id
  read_empty := rfl
  read_of_fills := by
    rintro w e created ⟨source, destination, given, condition, rfl, rfl, hs, hd, hc, rfl⟩
    refine ⟨Store.transition?_nextTransition, ?_⟩
    rw [World.step_of_effect (.newTransition hc hs hd), Store.transition?_pushTransition,
      if_pos rfl]
  fills_of_read := by
    intro w w' e created he hnone hread
    cases he with
    | @newTransition source destination given condition hc hs hd =>
      rw [Store.transition?_pushTransition, hnone] at hread
      obtain ⟨hid, rfl⟩ : w.store.nextTransition = id ∧
        ⟨source, destination, condition⟩ = created := by simpa using hread
      exact ⟨source, destination, given, condition, rfl, hid, hs, hd, hc, rfl⟩
    | setCondition hc hid =>
      rw [Store.transition?_withTransition, hnone] at hread
      cases hread
    | newState | setName | setOutputs | setDefault | addState | addDefault | addTransition =>
      rw [show w.store.transition? id = some created from hread] at hnone
      cases hnone
  read_effect := by
    intro w w' e t he hread
    cases he with
    | newTransition hc hs hd =>
      rw [Store.transition?_pushTransition, if_neg, hread]
      · rfl
      · rintro rfl
        rw [Store.transition?_nextTransition] at hread
        cases hread
    | setCondition hc hid =>
      simp only [Store.transition?_withTransition, hread, Edit.transitionChange?, hc,
        elim_ite_some]
      rfl
    | newState | setName | setOutputs | setDefault | addState | addDefault | addTransition =>
      exact hread

end Place

end Moore
