import Moore.Expr.Simplify
import Moore.Proofs.Expr.Truth

/-
# Simplification preserves truth

`eval_simplify` says that an expression and its simplified form have the same value under
every assignment, whatever the operand counts of its nodes.  The law for a single node,
`eval_simplifyNode`, is put together from one lemma for each rewriting: opening nodes and
dropping constants (`collect`), the complement law, and absorption.

The second half follows the shape of what is left.  A simplified expression is a constant
or `Solid`: it then holds no constant and no empty node, and so reads some input.  It never
reads an input that the expression did not read.
-/

namespace Moore.Expr

variable {σ : String → Bool} {op : Connective}

/-! ### The rewritings of a node -/

/-- Either an expression is a node that is opened, or it stands for itself. -/
theorem operandsOf_cases (op : Connective) (e : Expr) :
    e = nary op (operandsOf op e) ∨ operandsOf op e = [e] := by
  cases e with
  | lit b => exact .inr rfl
  | var x => exact .inr rfl
  | not e => exact .inr rfl
  | nary op' es =>
    by_cases h : op' = op
    · subst h
      exact .inl (by simp [operandsOf])
    · exact .inr (by simp [operandsOf, h])

theorem eval_operandsOf (op : Connective) (e : Expr) :
    (nary op (operandsOf op e)).eval σ = e.eval σ := by
  rcases operandsOf_cases op e with h | h
  · rw [← h]
  · rw [h, ← eval_joined, joined_singleton]

/-- What `collect` keeps: the operands of the operands that are no constants. -/
theorem mem_collect {es : List Expr} {x : Expr} :
    x ∈ collect op es ↔ ∃ e ∈ es, (∀ b, e ≠ lit b) ∧ x ∈ operandsOf op e := by
  simp only [collect, Ordered.mem_ofList, List.mem_flatMap]
  constructor
  · rintro ⟨e, he, hx⟩
    cases e with
    | lit b => simp at hx
    | var _ | not _ | nary _ _ => exact ⟨_, he, by simp, hx⟩
  · rintro ⟨e, he, hlit, hx⟩
    refine ⟨e, he, ?_⟩
    cases e with
    | lit b => exact absurd rfl (hlit b)
    | var _ | not _ | nary _ _ => exact hx

/-- Dropping constants and opening nodes changes nothing, unless a constant decides. -/
theorem eval_collect {es : List Expr} (h : lit op.zero ∉ es) :
    (nary op (collect op es)).eval σ = (nary op es).eval σ := by
  apply op.eq_of_eq_zero_iff
  rw [eval_nary_eq_zero_iff, eval_nary_eq_zero_iff]
  constructor
  · rintro ⟨x, hx, hz⟩
    obtain ⟨e, he, -, hxe⟩ := mem_collect.1 hx
    refine ⟨e, he, ?_⟩
    rw [← eval_operandsOf op e]
    exact eval_nary_eq_zero_iff.2 ⟨x, hxe, hz⟩
  · rintro ⟨e, he, hz⟩
    have hlit : ∀ b, e ≠ lit b := by
      rintro b rfl
      rw [eval_lit] at hz
      exact h (hz ▸ he)
    rw [← eval_operandsOf op e] at hz
    obtain ⟨x, hx, hz⟩ := eval_nary_eq_zero_iff.1 hz
    exact ⟨x, mem_collect.2 ⟨e, he, hlit, hx⟩, hz⟩

/-- The complement law: an operand beside its negation decides the node. -/
theorem eval_of_hasComplement {es : List Expr} (h : hasComplement es = true) :
    (nary op es).eval σ = op.zero := by
  obtain ⟨f, hf, he⟩ := List.any_eq_true.1 h
  cases f with
  | lit _ | var _ | nary _ _ => simp at he
  | not e =>
    have he : e ∈ es := by simpa using he
    rw [eval_nary_eq_zero_iff]
    by_cases hz : e.eval σ = op.zero
    · exact ⟨e, he, hz⟩
    · have hu : e.eval σ = op.unit := Connective.ne_zero_iff.1 hz
      exact ⟨not e, hf, by simp [hu]⟩

theorem absorbs_iff {e f : Expr} :
    absorbs op e f = true ↔ (operandsOf op.dual e).length < (operandsOf op.dual f).length ∧
      operandsOf op.dual e ⊆ operandsOf op.dual f := by
  simp [absorbs, List.subset_def]

/-- Every operand has all operands of some kept one.  The induction is on the number of
operands, since what absorbs an operand may be absorbed itself. -/
theorem exists_mem_absorb {es : List Expr} {f : Expr} (hf : f ∈ es) :
    ∃ k ∈ absorb op es, operandsOf op.dual k ⊆ operandsOf op.dual f := by
  induction hn : (operandsOf op.dual f).length using Nat.strongRecOn generalizing f with
  | ind n ih =>
    by_cases h : es.any (absorbs op · f) = true
    · obtain ⟨e, he, habs⟩ := List.any_eq_true.1 h
      obtain ⟨hlt, hsub⟩ := absorbs_iff.1 habs
      obtain ⟨k, hk, hke⟩ := ih _ (hn ▸ hlt) he rfl
      exact ⟨k, hk, fun x hx => hsub (hke hx)⟩
    · exact ⟨f, List.mem_filter.2 ⟨hf, by simpa using h⟩, fun x hx => hx⟩

/-- Fewer operands under the dual connective make an expression decide more often. -/
theorem eval_eq_zero_of_subset {e f : Expr} (h : operandsOf op.dual e ⊆ operandsOf op.dual f)
    (hf : f.eval σ = op.zero) : e.eval σ = op.zero := by
  rw [← eval_operandsOf op.dual, ← Connective.unit_dual, eval_nary_eq_unit_iff] at hf ⊢
  exact fun x hx => hf x (h hx)

/-- Absorption drops only operands that could not have changed the value. -/
theorem eval_absorb (es : List Expr) : (nary op (absorb op es)).eval σ = (nary op es).eval σ := by
  apply op.eq_of_eq_zero_iff
  rw [eval_nary_eq_zero_iff, eval_nary_eq_zero_iff]
  constructor
  · rintro ⟨k, hk, hz⟩
    exact ⟨k, (List.mem_filter.1 hk).1, hz⟩
  · rintro ⟨f, hf, hz⟩
    obtain ⟨k, hk, hsub⟩ := exists_mem_absorb hf
    exact ⟨k, hk, eval_eq_zero_of_subset hsub hz⟩

theorem eval_simplifyNode (es : List Expr) :
    (simplifyNode op es).eval σ = (nary op es).eval σ := by
  simp only [simplifyNode]
  by_cases hzero : lit op.zero ∈ es
  · have hnode : (nary op es).eval σ = op.zero :=
      eval_nary_eq_zero_iff.2 ⟨_, hzero, eval_lit σ op.zero⟩
    simp [hzero, hnode]
  · by_cases hcomp : hasComplement (collect op es) = true
    · have hnode : (nary op es).eval σ = op.zero := by
        rw [← eval_collect hzero, eval_of_hasComplement hcomp]
      simp [hcomp, hnode]
    · simp [hzero, hcomp, eval_absorb, eval_collect hzero]

theorem eval_negated (e : Expr) : (negated e).eval σ = !e.eval σ := by
  cases e <;> simp [negated]

/-- Simplification keeps the value under every assignment. -/
@[simp] theorem eval_simplify (e : Expr) : e.simplify.eval σ = e.eval σ := by
  induction e with
  | lit b => simp
  | var x => simp
  | not e ih => simp [simplify_not, eval_negated, ih]
  | nary op es ih => rw [simplify_nary, eval_simplifyNode, eval_nary_map ih]

/-! ### What is left after simplification -/

/-- An expression without constants and without empty nodes. -/
inductive Solid : Expr → Prop where
  | var (x : String) : Solid (var x)
  | not {e : Expr} : Solid e → Solid (not e)
  | nary {op : Connective} {es : List Expr} :
      es ≠ [] → (∀ e ∈ es, Solid e) → Solid (nary op es)

/-- A constant, or an expression that holds none. -/
def Folded (e : Expr) : Prop :=
  (∃ b, e = lit b) ∨ e.Solid

/-- A solid expression reads some input. -/
theorem Solid.exists_mem_occurrences {e : Expr} (h : e.Solid) : ∃ x, x ∈ e.occurrences := by
  induction h with
  | var x => exact ⟨x, by simp⟩
  | not _ ih => simpa using ih
  | @nary op es hne _ ih =>
    obtain ⟨e, he⟩ := List.exists_mem_of_ne_nil es hne
    obtain ⟨x, hx⟩ := ih e he
    exact ⟨x, mem_occurrences_nary.2 ⟨e, he, hx⟩⟩

theorem Solid.of_mem_operandsOf {e x : Expr} (h : e.Solid) (hx : x ∈ operandsOf op e) :
    x.Solid := by
  rcases operandsOf_cases op e with he | he
  · rw [he] at h
    cases h with
    | nary _ hes => exact hes x hx
  · rw [he, List.mem_singleton] at hx
    exact hx ▸ h

theorem folded_negated {e : Expr} (h : e.Folded) : (negated e).Folded := by
  rcases h with ⟨b, rfl⟩ | h
  · exact .inl ⟨!b, rfl⟩
  · cases h with
    | var x => exact .inr (.not (.var x))
    | not h => exact .inr h
    | nary hne hes => exact .inr (.not (.nary hne hes))

theorem folded_joined {es : List Expr} (h : ∀ e ∈ es, e.Solid) : (joined op es).Folded := by
  match es with
  | [] => exact .inl ⟨op.unit, rfl⟩
  | [e] => exact .inr (h e (by simp))
  | _ :: _ :: _ => exact .inr (.nary (by simp) h)

theorem folded_simplifyNode {es : List Expr} (h : ∀ e ∈ es, e.Folded) :
    (simplifyNode op es).Folded := by
  have hflat : ∀ x ∈ collect op es, x.Solid := by
    intro x hx
    obtain ⟨e, he, hlit, hxe⟩ := mem_collect.1 hx
    rcases h e he with ⟨b, rfl⟩ | hs
    · exact absurd rfl (hlit b)
    · exact hs.of_mem_operandsOf hxe
  simp only [simplifyNode]
  split
  · exact .inl ⟨op.zero, rfl⟩
  · exact folded_joined fun x hx => hflat x (List.mem_filter.1 hx).1

/-- Simplification leaves a constant or removes all constants. -/
theorem folded_simplify (e : Expr) : e.simplify.Folded := by
  induction e with
  | lit b => exact .inl ⟨b, simplify_lit b⟩
  | var x => exact .inr (by simpa using Solid.var x)
  | not e ih =>
    rw [simplify_not]
    exact folded_negated ih
  | nary op es ih =>
    rw [simplify_nary]
    refine folded_simplifyNode fun e he => ?_
    obtain ⟨f, hf, rfl⟩ := List.mem_map.1 he
    exact ih f hf

/-! ### Inputs of a simplified expression -/

theorem mem_occurrences_of_operandsOf {e y : Expr} {x : String} (hy : y ∈ operandsOf op e)
    (hx : x ∈ y.occurrences) : x ∈ e.occurrences := by
  rcases operandsOf_cases op e with he | he
  · rw [he]
    exact mem_occurrences_nary.2 ⟨y, hy, hx⟩
  · rw [he, List.mem_singleton] at hy
    exact hy ▸ hx

theorem mem_occurrences_of_simplifyNode {es : List Expr} {x : String}
    (h : x ∈ (simplifyNode op es).occurrences) : ∃ e ∈ es, x ∈ e.occurrences := by
  simp only [simplifyNode] at h
  split at h
  · simp at h
  · obtain ⟨y, hy, hx⟩ := mem_occurrences_joined.1 h
    obtain ⟨e, he, -, hye⟩ := mem_collect.1 (List.mem_filter.1 hy).1
    exact ⟨e, he, mem_occurrences_of_operandsOf hye hx⟩

theorem occurrences_negated (e : Expr) : (negated e).occurrences = e.occurrences := by
  cases e <;> simp [negated]

/-- Simplification brings in no input. -/
theorem mem_occurrences_of_simplify {e : Expr} {x : String} (h : x ∈ e.simplify.occurrences) :
    x ∈ e.occurrences := by
  induction e with
  | lit b => simp at h
  | var y => simpa using h
  | not e ih =>
    rw [simplify_not, occurrences_negated] at h
    simpa using ih h
  | nary op es ih =>
    rw [simplify_nary] at h
    obtain ⟨f, hf, hx⟩ := mem_occurrences_of_simplifyNode h
    obtain ⟨e, he, rfl⟩ := List.mem_map.1 hf
    exact mem_occurrences_nary.2 ⟨e, he, ih e he hx⟩

/-- An expression without inputs simplifies to its value. -/
theorem simplify_of_occurrences_nil {e : Expr} (h : e.occurrences = []) :
    e.simplify = lit (e.eval σ) := by
  rcases folded_simplify e with ⟨b, hb⟩ | hs
  · rw [hb, ← eval_simplify e, hb, eval_lit]
  · obtain ⟨x, hx⟩ := hs.exists_mem_occurrences
    have hmem := mem_occurrences_of_simplify hx
    rw [h] at hmem
    exact absurd hmem List.not_mem_nil

end Moore.Expr
