import Moore.Expr.Truth

/-
# Laws of truth

The two connectives are treated at once: a node has the deciding constant of its
connective as its value exactly if one of its operands has (`eval_nary_eq_zero_iff`), and
two truth values are equal if they agree on being that constant
(`Connective.eq_of_eq_zero_iff`).  Only the inputs that occur in an expression matter for
its value (`eval_congr`).
-/

namespace Moore

namespace Connective

@[simp] theorem not_zero (op : Connective) : (!op.zero) = op.unit := by
  cases op <;> rfl

@[simp] theorem unit_dual (op : Connective) : op.dual.unit = op.zero := by
  cases op <;> rfl

@[simp] theorem zero_dual (op : Connective) : op.dual.zero = op.unit := by
  cases op <;> rfl

theorem ne_zero_iff {op : Connective} {b : Bool} : b ≠ op.zero ↔ b = op.unit := by
  cases op <;> cases b <;> decide

/-- Two truth values are equal if both or neither decide a connective. -/
theorem eq_of_eq_zero_iff (op : Connective) {a b : Bool} (h : a = op.zero ↔ b = op.zero) :
    a = b := by
  cases op <;> cases a <;> cases b <;> simp_all [zero, unit]

end Connective

namespace Expr

variable {σ τ : String → Bool} {op : Connective}

/-! ### Nodes -/

/-- An operand with the deciding value decides the node, and nothing else does. -/
theorem eval_nary_eq_zero_iff {es : List Expr} :
    (nary op es).eval σ = op.zero ↔ ∃ e ∈ es, e.eval σ = op.zero := by
  cases op with
  | and => simp [Connective.zero, Connective.unit]
  | or => simp [Connective.zero, Connective.unit]

/-- A node has the neutral value exactly if all of its operands have. -/
theorem eval_nary_eq_unit_iff {es : List Expr} :
    (nary op es).eval σ = op.unit ↔ ∀ e ∈ es, e.eval σ = op.unit := by
  cases op with
  | and => simp [Connective.unit]
  | or => simp [Connective.unit]

/-- Joining operands does not change what they mean together. -/
@[simp] theorem eval_joined (es : List Expr) : (joined op es).eval σ = (nary op es).eval σ := by
  match es with
  | [] => cases op <;> rfl
  | [e] => cases op <;> simp
  | _ :: _ :: _ => rfl

/-- A node keeps its value when its operands are replaced by operands of the same values. -/
theorem eval_nary_map {f : Expr → Expr} {es : List Expr}
    (h : ∀ e ∈ es, (f e).eval σ = e.eval τ) :
    (nary op (es.map f)).eval σ = (nary op es).eval τ := by
  apply op.eq_of_eq_zero_iff
  rw [eval_nary_eq_zero_iff, eval_nary_eq_zero_iff]
  constructor
  · rintro ⟨_, hf, hz⟩
    obtain ⟨e, he, rfl⟩ := List.mem_map.1 hf
    exact ⟨e, he, (h e he).symm.trans hz⟩
  · rintro ⟨e, he, hz⟩
    exact ⟨f e, List.mem_map_of_mem he, (h e he).trans hz⟩

/-! ### Assignments -/

/-- Assignments that agree on the inputs of an expression give it the same value. -/
theorem eval_congr {e : Expr} (h : ∀ x ∈ e.occurrences, σ x = τ x) : e.eval σ = e.eval τ := by
  induction e with
  | lit b => simp
  | var x => simpa using h x (by simp)
  | not e ih => simpa using ih (by simpa using h)
  | nary op es ih =>
    have hes : ∀ e ∈ es, (id e).eval σ = e.eval τ := fun e he =>
      ih e he fun x hx => h x (mem_occurrences_nary.2 ⟨e, he, hx⟩)
    have hmap : (nary op (es.map id)).eval σ = (nary op es).eval τ := eval_nary_map hes
    rwa [List.map_id] at hmap

end Expr

end Moore
