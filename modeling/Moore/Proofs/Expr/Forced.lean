import Moore.Bindings
import Moore.Proofs.Assignment
import Moore.Proofs.Expr.Truth

/-
# Forced values

Bindings force a value if it follows from the bound inputs by the truth tables of the
connectives (`Forced`), whatever the other inputs are.  A forced value is the value under
every assignment that extends the bindings (`Forced.eval_eq`), and further bindings keep it
(`Forced.mono`).  Bindings for all inputs force the value that they give (`forced_eval`).
-/

namespace Moore.Expr

variable {b b' : Bindings} {σ : String → Bool} {op : Connective} {e : Expr} {es : List Expr}
  {v w : Bool} {x : String}

/-- The bound inputs give the expression the value by the truth tables of the connectives,
whatever the other inputs are. -/
inductive Forced (b : Bindings) : Expr → Bool → Prop where
  | lit (v : Bool) : Forced b (lit v) v
  | var {x : String} {v : Bool} : b.get? x = some v → Forced b (var x) v
  | not {e : Expr} {v : Bool} : Forced b e v → Forced b (not e) !v
  | zero {op : Connective} {es : List Expr} {e : Expr} :
      e ∈ es → Forced b e op.zero → Forced b (nary op es) op.zero
  | unit {op : Connective} {es : List Expr} :
      (∀ e ∈ es, Forced b e op.unit) → Forced b (nary op es) op.unit

/-! ### Each kind of expression -/

theorem forced_lit_iff : Forced b (lit w) v ↔ w = v := by
  constructor
  · rintro ⟨⟩
    rfl
  · rintro rfl
    exact .lit w

theorem forced_var_iff : Forced b (var x) v ↔ b.get? x = some v := by
  constructor
  · rintro ⟨⟩
    assumption
  · exact .var

theorem forced_not_iff : Forced b (not e) v ↔ Forced b e !v := by
  constructor
  · rintro ⟨⟩
    rwa [Bool.not_not]
  · intro h
    rw [← Bool.not_not v]
    exact .not h

theorem forced_zero_iff : Forced b (nary op es) op.zero ↔ ∃ e ∈ es, Forced b e op.zero := by
  constructor
  · generalize hv : op.zero = v
    rintro (_ | _ | _ | ⟨he, h⟩ | _)
    · exact ⟨_, he, h⟩
    · exact absurd hv.symm (Connective.ne_zero_iff.2 rfl)
  · rintro ⟨e, he, h⟩
    exact .zero he h

theorem forced_unit_iff : Forced b (nary op es) op.unit ↔ ∀ e ∈ es, Forced b e op.unit := by
  constructor
  · generalize hv : op.unit = v
    rintro (_ | _ | _ | _ | h)
    · exact absurd hv.symm (Connective.ne_zero_iff.2 rfl).symm
    · exact h
  · exact .unit

/-- A node is forced to have the one value by one of its operands and the other by all of
them; under a negation the connectives change places. -/
theorem forced_nary_iff (neg : Bool) : Forced b (nary op es) !neg ↔
    match if neg then op.dual else op with
    | .or => ∃ e ∈ es, Forced b e !neg
    | .and => ∀ e ∈ es, Forced b e !neg := by
  cases op <;> cases neg
  case and.false => exact @forced_unit_iff b .and es
  case and.true => exact @forced_zero_iff b .and es
  case or.false => exact @forced_zero_iff b .or es
  case or.true => exact @forced_unit_iff b .or es

/-! ### Assignments and further bindings -/

theorem Forced.mono (hb : b.KeptBy b') (h : Forced b e v) : Forced b' e v := by
  induction h with
  | lit v => exact .lit v
  | var hx => exact .var (hb _ _ hx)
  | not _ ih => exact .not ih
  | zero he _ ih => exact .zero he ih
  | unit _ ih => exact .unit ih

theorem Forced.eval_eq (h : Forced b e v) (hσ : b.ExtendedBy σ) : e.eval σ = v := by
  induction h with
  | lit v => exact eval_lit σ v
  | var hx => exact (eval_var σ _).trans (hσ _ _ hx)
  | not _ ih => rw [eval_not, ih]
  | zero he _ ih => exact eval_nary_eq_zero_iff.2 ⟨_, he, ih⟩
  | unit _ ih => exact eval_nary_eq_unit_iff.2 ih

/-- Where every input is bound, the value is forced. -/
theorem forced_eval (h : ∀ x ∈ e.occurrences, b.get? x = some (σ x)) :
    Forced b e (e.eval σ) := by
  induction e with
  | lit v =>
    rw [eval_lit]
    exact .lit v
  | var x =>
    rw [eval_var]
    exact .var (h x (by simp))
  | not e ih =>
    rw [eval_not]
    exact .not (ih (by simpa using h))
  | nary op es ih =>
    have hes : ∀ e ∈ es, Forced b e (e.eval σ) := fun e he =>
      ih e he fun x hx => h x (mem_occurrences_nary.2 ⟨e, he, hx⟩)
    by_cases hv : (nary op es).eval σ = op.zero
    · obtain ⟨e, he, hz⟩ := eval_nary_eq_zero_iff.1 hv
      rw [hv]
      exact .zero he (hz ▸ hes e he)
    · have hunit : (nary op es).eval σ = op.unit := Connective.ne_zero_iff.1 hv
      rw [hunit]
      exact .unit fun e he => eval_nary_eq_unit_iff.1 hunit e he ▸ hes e he

end Moore.Expr
