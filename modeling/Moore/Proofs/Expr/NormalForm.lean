import Moore.Expr.NormalForm
import Moore.Proofs.Expr.Forced
import Moore.Proofs.Expr.Simplify
import Moore.Proofs.Expr.Term

/-
# Normal forms decide

The terms of an expression are the parts of the inputs that force it to be true
(`covers_termsWith`), by induction over the expression with the polarity as a parameter; so
they hold exactly where it does (`holds_terms`).  They are the terms of its negation normal
form (`terms_nnfWith`).  Hence both normal forms keep its meaning, and since a list of terms
that never holds is empty, the disjunctive form is the constant false for unsatisfiable
expressions only, and the conjunctive one the constant true for tautologies only.
Simplifying a normal form does not change the answer.
-/

namespace Moore.Expr

open Term (Covers Holds)

variable {b : Bindings} {σ : String → Bool} {neg : Bool}

/-! ### The terms of an expression -/

/-- A product covers what the terms so far and those of every operand cover. -/
theorem covers_productTerms {acc : List Term} {es : List Expr} :
    Covers b (productTerms neg acc es) ↔
      Covers b acc ∧ ∀ e ∈ es, Covers b (termsWith neg e) := by
  induction es generalizing acc with
  | nil => simp [productTerms]
  | cons e es ih =>
    have hstep : Covers b (Term.minimize (Term.cross acc (termsWith neg e))) ↔
        Covers b acc ∧ Covers b (termsWith neg e) := by
      rw [Term.covers_minimize, Term.covers_cross]
    simp only [productTerms, List.forall_mem_cons]
    split
    · next hempty =>
      -- The product is given up once no term is left: the terms so far fail already.
      rw [List.isEmpty_iff.1 hempty] at hstep
      have hnot := mt hstep.2 Term.not_covers_nil
      exact ⟨fun h => absurd h Term.not_covers_nil, fun h => absurd ⟨h.1, h.2.1⟩ hnot⟩
    · rw [ih, hstep, and_assoc]

theorem covers_sumTerms {es : List Expr} :
    Covers b (sumTerms neg es) ↔ ∃ e ∈ es, Covers b (termsWith neg e) := by
  rw [sumTerms_eq, Term.covers_flatMap]

/-- The terms of an expression, or of its negation, cover the bindings that force it to be
true, or false. -/
theorem covers_termsWith (neg : Bool) (e : Expr) :
    Covers b (termsWith neg e) ↔ Forced b e !neg := by
  induction e generalizing neg with
  | lit v =>
    rw [forced_lit_iff]
    cases v <;> cases neg <;>
      simp [termsWith, Term.covers_singleton, Term.not_covers_nil, NameMap.keptBy_empty]
  | var x => rw [termsWith, Term.covers_singleton, Term.keptBy_single, forced_var_iff]
  | not e ih => rw [termsWith, ih, forced_not_iff]
  | nary op es ih =>
    rw [termsWith, forced_nary_iff]
    cases if neg then op.dual else op with
    | or =>
      simp only [Term.covers_minimize, covers_sumTerms]
      exact exists_congr fun e => and_congr_right fun he => ih e he neg
    | and =>
      simp only [covers_productTerms, Term.covers_singleton, NameMap.keptBy_empty, true_and]
      exact forall₂_congr fun e he => ih e he neg

/-- So they hold where it is true, or false: the values of all inputs force its value. -/
theorem holds_termsWith (neg : Bool) (e : Expr) :
    Holds σ (termsWith neg e) ↔ e.eval σ = !neg := by
  constructor
  · rintro ⟨t, ht, hσ⟩
    have hforced : Forced t e !neg := (covers_termsWith neg e).1 ⟨t, ht, .refl t⟩
    exact hforced.eval_eq hσ
  · intro h
    have hforced : Forced (NameMap.ofAssignment σ e.occurrences) e !neg :=
      h ▸ forced_eval fun x hx => by rw [NameMap.get?_ofAssignment, if_pos hx]
    obtain ⟨t, ht, hkept⟩ := (covers_termsWith neg e).2 hforced
    exact ⟨t, ht, hkept.extendedBy (NameMap.extendedBy_ofAssignment σ e.occurrences)⟩

theorem holds_terms {e : Expr} : Holds σ e.terms ↔ e.eval σ = true :=
  holds_termsWith false e

/-- An expression has no term exactly if it is never true. -/
theorem terms_eq_nil_iff {e : Expr} : e.terms = [] ↔ ∀ σ, e.eval σ = false := by
  constructor
  · intro h σ
    rw [Bool.eq_false_iff, ne_eq, ← holds_terms, h]
    exact Term.not_holds_nil
  · intro h
    refine Term.eq_nil_of_forall_not_holds fun σ hσ => ?_
    have htrue : e.eval σ = true := holds_terms.1 hσ
    simp [h σ] at htrue

/-- An expression has no clause exactly if it is always true. -/
theorem clauses_eq_nil_iff {e : Expr} : e.clauses = [] ↔ ∀ σ, e.eval σ = true := by
  rw [clauses, List.map_eq_nil_iff]
  constructor
  · intro h σ
    rw [← Bool.not_eq_false, ← Bool.not_true, ← holds_termsWith, h]
    exact Term.not_holds_nil
  · intro h
    refine Term.eq_nil_of_forall_not_holds fun σ hσ => ?_
    have hfalse : e.eval σ = false := (holds_termsWith true e).1 hσ
    simp [h σ] at hfalse

/-! ### Terms after negation normal form -/

/-- A product depends on its operands through their terms only. -/
theorem productTerms_map {f : Expr → Expr} {neg neg' : Bool} {es : List Expr}
    (h : ∀ e ∈ es, termsWith neg' (f e) = termsWith neg e) (acc : List Term) :
    productTerms neg' acc (es.map f) = productTerms neg acc es := by
  induction es generalizing acc with
  | nil => simp [productTerms]
  | cons e es ih =>
    obtain ⟨he, hes⟩ := List.forall_mem_cons.1 h
    simp only [List.map_cons, productTerms, he, ih hes]

theorem sumTerms_map {f : Expr → Expr} {neg neg' : Bool} {es : List Expr}
    (h : ∀ e ∈ es, termsWith neg' (f e) = termsWith neg e) :
    sumTerms neg' (es.map f) = sumTerms neg es := by
  rw [sumTerms_eq, sumTerms_eq, List.flatMap_map, List.flatMap_def, List.map_congr_left h,
    List.flatMap_def]

/-- Collecting terms with a polarity is pushing the negations down and collecting terms. -/
theorem terms_nnfWith (neg : Bool) (e : Expr) : (nnfWith neg e).terms = termsWith neg e := by
  rw [terms]
  induction e generalizing neg with
  | lit b => simp [termsWith, nnfWith]
  | var x => cases neg <;> simp [termsWith, nnfWith]
  | not e ih =>
    rw [nnfWith, termsWith]
    exact ih (!neg)
  | nary op es ih =>
    have hes : ∀ e ∈ es, termsWith false (nnfWith neg e) = termsWith neg e :=
      fun e he => ih e he neg
    simp only [nnfWith, termsWith, nnfAll_eq, sumTerms_map hes, productTerms_map hes,
      Bool.false_eq_true, if_false]

/-! ### Expressions built from terms -/

theorem eval_literal (l : String × Bool) : (literal l).eval σ = (σ l.1 == l.2) := by
  obtain ⟨x, p⟩ := l
  cases p <;> simp [literal]

/-- What is built from terms is decided by a term all of whose literals decide. -/
theorem eval_ofTerms_eq_zero_iff {op : Connective} {ts : List Term} :
    (ofTerms op ts).eval σ = op.zero ↔
      ∃ t ∈ ts, ∀ l ∈ t.entries, (literal l).eval σ = op.zero := by
  have hterm : ∀ t : Term, (joined op.dual (t.entries.map literal)).eval σ = op.zero ↔
      ∀ l ∈ t.entries, (literal l).eval σ = op.zero := by
    intro t
    rw [eval_joined, ← op.unit_dual, eval_nary_eq_unit_iff, List.forall_mem_map]
  rw [ofTerms, eval_joined, eval_nary_eq_zero_iff]
  constructor
  · rintro ⟨_, he, hz⟩
    obtain ⟨t, ht, rfl⟩ := List.mem_map.1 he
    exact ⟨t, ht, (hterm t).1 hz⟩
  · rintro ⟨t, ht, hz⟩
    exact ⟨_, List.mem_map_of_mem ht, (hterm t).2 hz⟩

/-- The disjunction of terms is true where the terms hold. -/
theorem eval_ofTerms_or {ts : List Term} : (ofTerms .or ts).eval σ = true ↔ Holds σ ts := by
  have hdecide : (ofTerms .or ts).eval σ = Connective.or.zero ↔ _ := eval_ofTerms_eq_zero_iff
  rw [show true = Connective.or.zero from rfl, hdecide]
  simp [Holds, eval_literal, NameMap.extendedBy_iff_entries, Connective.zero, Connective.unit]

/-- The conjunction of clauses is false where the opposite of one of them holds as a term. -/
theorem eval_ofTerms_and {ts : List Term} :
    (ofTerms .and ts).eval σ = false ↔ Holds σ (ts.map Term.opposite) := by
  have hdecide : (ofTerms .and ts).eval σ = Connective.and.zero ↔ _ := eval_ofTerms_eq_zero_iff
  have hliteral : ∀ l : String × Bool,
      (literal l).eval σ = Connective.and.zero ↔ σ l.1 = !l.2 := by
    intro l
    rw [eval_literal]
    cases σ l.1 <;> cases l.2 <;> decide
  rw [show false = Connective.and.zero from rfl, hdecide]
  simp only [Holds, List.mem_map, hliteral, ← Term.extendedBy_opposite]
  constructor
  · rintro ⟨t, ht, hσ⟩
    exact ⟨t.opposite, ⟨t, ht, rfl⟩, hσ⟩
  · rintro ⟨_, ⟨t, ht, rfl⟩, hσ⟩
    exact ⟨t, ht, hσ⟩

/-! ### The normal forms -/

theorem eval_dnf (e : Expr) : e.dnf.eval σ = e.eval σ := by
  rw [Bool.eq_iff_iff, dnf, eval_ofTerms_or, holds_terms]

theorem eval_cnf (e : Expr) : e.cnf.eval σ = e.eval σ := by
  have hopp : e.clauses.map Term.opposite = termsWith true e := by
    simp [clauses, Function.comp_def, Term.opposite_opposite]
  have h : e.cnf.eval σ = Connective.and.zero ↔ e.eval σ = Connective.and.zero := by
    rw [show Connective.and.zero = false from rfl, cnf, eval_ofTerms_and, hopp]
    exact holds_termsWith true e
  exact Connective.and.eq_of_eq_zero_iff h

theorem dnf_eq_false_iff {e : Expr} : e.dnf = lit false ↔ ∀ σ, e.eval σ = false := by
  constructor
  · intro h σ
    rw [← eval_dnf, h, eval_lit]
  · intro h
    rw [dnf, terms_eq_nil_iff.2 h]
    rfl

theorem cnf_eq_true_iff {e : Expr} : e.cnf = lit true ↔ ∀ σ, e.eval σ = true := by
  constructor
  · intro h σ
    rw [← eval_cnf, h, eval_lit]
  · intro h
    rw [cnf, clauses_eq_nil_iff.2 h]
    rfl

theorem simplify_dnf_eq_false_iff {e : Expr} :
    e.dnf.simplify = lit false ↔ ∀ σ, e.eval σ = false := by
  constructor
  · intro h σ
    rw [← eval_dnf, ← eval_simplify, h, eval_lit]
  · intro h
    rw [dnf_eq_false_iff.2 h, simplify_lit]

theorem simplify_cnf_eq_true_iff {e : Expr} :
    e.cnf.simplify = lit true ↔ ∀ σ, e.eval σ = true := by
  constructor
  · intro h σ
    rw [← eval_cnf, ← eval_simplify, h, eval_lit]
  · intro h
    rw [cnf_eq_true_iff.2 h, simplify_lit]

/-- The normal forms have the value of the expression under every assignment, and they are
complete: the disjunctive form of an unsatisfiable expression and the conjunctive form of a
tautology are constants, before and after simplification. -/
theorem normal_forms_decide (e : Expr) :
    (∀ σ, e.dnf.eval σ = e.eval σ ∧ e.cnf.eval σ = e.eval σ) ∧
      (e.dnf = lit false ↔ ∀ σ, e.eval σ = false) ∧
      (e.cnf = lit true ↔ ∀ σ, e.eval σ = true) ∧
      (e.dnf.simplify = lit false ↔ ∀ σ, e.eval σ = false) ∧
      (e.cnf.simplify = lit true ↔ ∀ σ, e.eval σ = true) :=
  ⟨fun _ => ⟨eval_dnf e, eval_cnf e⟩, dnf_eq_false_iff, cnf_eq_true_iff,
    simplify_dnf_eq_false_iff, simplify_cnf_eq_true_iff⟩

end Moore.Expr
