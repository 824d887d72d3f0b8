import Moore.Proofs.Except

/-
# First faults

A step that can fail is described by the list of all faults of what it is given, in the
order in which they are looked for: it fails with the first of them, and if there is none
it succeeds.  `Settles` says so, and carries over from steps to their compositions, where
the lists are appended.
-/

namespace Moore

variable {ε ε' α β : Type}

/-- An outcome is the first of the faults or, if there is none, a result with the property. -/
inductive Settles (faults : List ε) (P : α → Prop) : Except ε α → Prop where
  | ok {a : α} : faults = [] → P a → Settles faults P (.ok a)
  | error {e : ε} : faults.head? = some e → Settles faults P (.error e)

/-- The fault of an outcome, if it has one. -/
def faultsOf : Except ε α → List ε
  | .ok _ => []
  | .error e => [e]

@[simp] theorem mem_faultsOf {r : Except ε α} {e : ε} : e ∈ faultsOf r ↔ r = .error e := by
  cases r with
  | ok a => simp [faultsOf]
  | error e' => simp [faultsOf, eq_comm]

namespace Settles

variable {faults more : List ε} {P : α → Prop} {Q : β → Prop} {r : Except ε α}

/-- There is a result exactly if there is no fault. -/
theorem exists_ok_iff (h : Settles faults P r) : (∃ a, r = .ok a) ↔ faults = [] := by
  cases h with
  | ok hnone _ => simp [hnone]
  | error hfirst =>
    constructor
    · rintro ⟨a, ha⟩
      cases ha
    · intro hnone
      simp [hnone] at hfirst

theorem eq_error_iff (h : Settles faults P r) {e : ε} : r = .error e ↔ faults.head? = some e := by
  cases h with
  | ok hnone _ => simp [hnone]
  | error hfirst => simp [hfirst]

theorem of_ok {a : α} (hr : r = .ok a) (ha : P a) : Settles [] P r := by
  rw [hr]
  exact .ok rfl ha

theorem of_eq_ok (h : Settles faults P r) {a : α} (hr : r = .ok a) : P a := by
  cases h with
  | ok _ ha =>
    cases hr
    exact ha
  | error _ => cases hr

theorem mono {P' : α → Prop} (h : Settles faults P r) (hP : ∀ a, P a → P' a) :
    Settles faults P' r := by
  cases h with
  | ok hnone ha => exact .ok hnone (hP _ ha)
  | error hfirst => exact .error hfirst

/-- A check of its own has one fault, its error. -/
theorem of_check (r : Except ε α) : Settles (faultsOf r) (r = .ok ·) r := by
  cases r with
  | ok a => exact .ok rfl rfl
  | error e => exact .error rfl

/-- The faults of the second step count only where the first one has none. -/
theorem bind {f : α → Except ε β} (h : Settles faults P r)
    (hf : ∀ a, P a → Settles more Q (f a)) : Settles (faults ++ more) Q (r >>= f) := by
  cases h with
  | ok hnone ha =>
    rw [hnone, List.nil_append]
    exact hf _ ha
  | error hfirst =>
    refine .error ?_
    rw [List.head?_append, hfirst]
    rfl

/-- Nothing can fail after the last check. -/
theorem bind_pure (h : Settles faults P r) (g : α → β) :
    Settles faults (fun _ => True) (r >>= fun a => pure (g a)) := by
  rw [← List.append_nil faults]
  exact h.bind fun _ _ => .ok rfl trivial

theorem mapError (h : Settles faults P r) (f : ε → ε') :
    Settles (faults.map f) P (r.mapError f) := by
  cases h with
  | ok hnone ha => exact .ok (by rw [hnone, List.map_nil]) ha
  | error hfirst => exact .error (by rw [List.head?_map, hfirst, Option.map_some])

/-- Steps taken one after the other, where `P` tells what holds after those taken so far. -/
theorem foldlM {step : β → α → Except ε β} {faults : α → List ε} {P : List α → β → Prop}
    (h : ∀ l a b, P l b → Settles (faults a) (P (l ++ [a])) (step b a)) {b : β} (hb : P [] b)
    (l : List α) : Settles (l.flatMap faults) (P l) (l.foldlM step b) := by
  have hrest : ∀ (l seen : List α) (b : β), P seen b →
      Settles (l.flatMap faults) (P (seen ++ l)) (l.foldlM step b) := by
    intro l
    induction l with
    | nil =>
      intro seen b hb
      rw [List.append_nil]
      exact .ok rfl hb
    | cons a l ih =>
      intro seen b hb
      rw [List.foldlM_cons, List.flatMap_cons, List.append_cons]
      exact (h seen a b hb).bind fun b' hb' => ih (seen ++ [a]) b' hb'
  exact hrest l [] b hb

end Settles

end Moore
