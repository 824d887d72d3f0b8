import Moore.Expr.Substitute
import Moore.Proofs.Assignment
import Moore.Proofs.Expr.Simplify

/-
# Substitution and partial knowledge

Bindings cut the assignments down to those that extend them.  Substituting bindings and
reading the rest under an assignment is reading the whole under the assignment overridden
by the bindings (`eval_substitute`).  So a value that `evaluate` gives is the value under
every assignment that extends the bindings, and since a simplified expression without
inputs is a constant, `evaluate` gives one whenever all inputs are bound.
-/

namespace Moore

namespace Expr

variable {σ : String → Bool} {b : Bindings}

theorem replace_nary (op : Connective) (es : List Expr) :
    (nary op es).replace b = nary op (es.map (replace b)) := by
  simp [replace, replaceAll_eq]

/-- Replacing bound inputs is overriding the assignment. -/
theorem eval_replace (e : Expr) : (e.replace b).eval σ = e.eval (b.override σ) := by
  induction e with
  | lit v => simp [replace]
  | var x =>
    cases h : b.get? x with
    | none => simp [replace, NameMap.override, h]
    | some v => simp [replace, NameMap.override, h]
  | not e ih => simp [replace, ih]
  | nary op es ih => rw [replace_nary, eval_nary_map ih]

/-- The inputs left by a replacement are those that are not bound. -/
theorem mem_occurrences_replace {e : Expr} {x : String} :
    x ∈ (e.replace b).occurrences ↔ x ∈ e.occurrences ∧ b.get? x = none := by
  induction e with
  | lit v => simp [replace]
  | var y =>
    cases h : b.get? y with
    | none =>
      simp only [replace, h, occurrences_var, List.mem_singleton]
      exact ⟨fun hx => ⟨hx, hx ▸ h⟩, And.left⟩
    | some v =>
      simp only [replace, h, occurrences_lit, occurrences_var, List.mem_singleton]
      refine ⟨fun hx => absurd hx List.not_mem_nil, ?_⟩
      rintro ⟨rfl, hnone⟩
      simp [h] at hnone
  | not e ih => simpa [replace] using ih
  | nary op es ih =>
    rw [replace_nary, mem_occurrences_nary, mem_occurrences_nary]
    constructor
    · rintro ⟨_, hf, hx⟩
      obtain ⟨e, he, rfl⟩ := List.mem_map.1 hf
      obtain ⟨hx, hnone⟩ := (ih e he).1 hx
      exact ⟨⟨e, he, hx⟩, hnone⟩
    · rintro ⟨⟨e, he, hx⟩, hnone⟩
      exact ⟨_, List.mem_map_of_mem he, (ih e he).2 ⟨hx, hnone⟩⟩

theorem eval_substitute (e : Expr) : (e.substitute b).eval σ = e.eval (b.override σ) := by
  rw [substitute, eval_simplify, eval_replace]

theorem evaluate_eq_some_iff {e : Expr} {v : Bool} :
    e.evaluate b = some v ↔ e.substitute b = lit v := by
  unfold evaluate
  split
  · simp [*]
  · next hlit => simpa using hlit v

/-- A value found from the bindings is the value under every extension of them. -/
theorem eval_of_evaluate {e : Expr} {v : Bool} (h : e.evaluate b = some v)
    (hσ : b.ExtendedBy σ) : e.eval σ = v := by
  calc e.eval σ = e.eval (b.override σ) := by rw [hσ.override_eq]
    _ = (e.substitute b).eval σ := (eval_substitute e).symm
    _ = v := by rw [evaluate_eq_some_iff.1 h, eval_lit]

/-- With all inputs bound the value is found. -/
theorem evaluate_of_bound {e : Expr} (h : ∀ x ∈ e.inputs, x ∈ b.names) (σ : String → Bool) :
    e.evaluate b = some (e.eval (b.override σ)) := by
  have hnil : (e.replace b).occurrences = [] := by
    rw [List.eq_nil_iff_forall_not_mem]
    intro x hx
    obtain ⟨hmem, hnone⟩ := mem_occurrences_replace.1 hx
    obtain ⟨v, hv⟩ := NameMap.mem_names.1 (h x (mem_inputs.2 hmem))
    simp [hnone] at hv
  rw [evaluate_eq_some_iff, substitute, simplify_of_occurrences_nil hnil, eval_replace]

/-- Substitution, simplification and evaluation agree with truth: what bindings leave of an
expression means the expression under overridden assignments, a value that they decide
holds under all their extensions, and they decide every expression whose inputs they bind. -/
theorem substitution_agrees_with_truth (e : Expr) (b : Bindings) :
    (∀ σ, (e.substitute b).eval σ = e.eval (b.override σ)) ∧
      (∀ σ, e.simplify.eval σ = e.eval σ) ∧
      (∀ v, e.evaluate b = some v → ∀ σ, b.ExtendedBy σ → e.eval σ = v) ∧
      ((∀ x ∈ e.inputs, x ∈ b.names) →
        ∀ σ, e.evaluate b = some (e.eval (b.override σ))) := by
  refine ⟨fun σ => eval_substitute e, fun σ => eval_simplify e, ?_, ?_⟩
  · intro v h σ hσ
    exact eval_of_evaluate h hσ
  · intro h σ
    exact evaluate_of_bound h σ

/-- A guard has a value once both of its inputs are bound. -/
theorem guard_decided :
    let e : Expr := nary .and [var "go", not (var "halt")]
    let b : Bindings := NameMap.ofList [("go", true), ("halt", false)]
    (∀ x ∈ e.inputs, x ∈ b.names) ∧ e.evaluate b = some true := by
  intro e b
  have hbound : ∀ x ∈ e.inputs, x ∈ b.names := by decide
  obtain ⟨-, -, -, hdecided⟩ := substitution_agrees_with_truth e b
  refine ⟨hbound, ?_⟩
  rw [hdecided hbound fun _ => false]
  decide

end Expr

end Moore
