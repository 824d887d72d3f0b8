import Mathlib.Data.List.Sections
import Moore.Proofs.Expr.Context
import Moore.Proofs.Expr.Irredundant
import Moore.Proofs.Expr.NormalForm

/-
# Distribution with and without pruning

Terms are collected with pruning on the way: each disjunction is minimized, so is a
conjunction after each of its operands, and a conjunction without any term left is given up.
`distributionWith` distributes plainly, without any of this.

Both cover the bindings that force the expression (`covers_termsWith`,
`covers_distributionWith`), and what was collected with pruning is irredundant.  So it is what
one minimization of the plain distribution leaves (`termsWith_eq_minimize`), and it depends
only on what forces the expression (`termsWith_congr`): the order, the repetition and the
nesting of operands do not matter (`Regrouped.forced_iff`).
-/

namespace Moore

open Term (Covers Irredundant)

variable {b : Bindings} {neg : Bool}

/-! ### Products of several factors -/

namespace Term

variable {s t u : Term} {ts : List Term}

/-- The literals of all terms, unless two of them contradict each other. -/
def conjoin? (ts : List Term) : Option Term :=
  ts.foldlM merge? ∅

/-- All conjunctions of one term of each list. -/
def products (L : List (List Term)) : List Term :=
  L.sections.filterMap conjoin?

theorem keptBy_of_foldlM (h : ts.foldlM merge? s = some u) :
    u.KeptBy b ↔ s.KeptBy b ∧ ∀ t ∈ ts, t.KeptBy b := by
  induction ts generalizing s with
  | nil =>
    obtain rfl : s = u := by simpa using h
    simp
  | cons t ts ih =>
    rw [List.foldlM_cons] at h
    obtain ⟨m, hm, h⟩ := Option.bind_eq_some_iff.1 h
    rw [ih h, keptBy_of_merge? hm, List.forall_mem_cons, and_assoc]

theorem exists_foldlM (hs : s.KeptBy b) (hts : ∀ t ∈ ts, t.KeptBy b) :
    ∃ u, ts.foldlM merge? s = some u := by
  induction ts generalizing s with
  | nil => exact ⟨s, rfl⟩
  | cons t ts ih =>
    obtain ⟨ht, hts⟩ := List.forall_mem_cons.1 hts
    obtain ⟨m, hm⟩ := exists_merge? hs ht
    rw [List.foldlM_cons, hm]
    exact ih ((keptBy_of_merge? hm).2 ⟨hs, ht⟩) hts

/-- A choice of one term of each list within the bindings needs all lists to cover them. -/
theorem exists_choice_iff {L : List (List Term)} :
    (∃ ts, List.Forall₂ (· ∈ ·) ts L ∧ ∀ t ∈ ts, t.KeptBy b) ↔ ∀ l ∈ L, Covers b l := by
  induction L with
  | nil => simp
  | cons l L ih =>
    rw [List.forall_mem_cons, ← ih]
    constructor
    · rintro ⟨_, _ | ⟨ht, hts⟩, hkept⟩
      obtain ⟨htb, htsb⟩ := List.forall_mem_cons.1 hkept
      exact ⟨⟨_, ht, htb⟩, _, hts, htsb⟩
    · rintro ⟨⟨t, ht, htb⟩, ts, hts, htsb⟩
      exact ⟨t :: ts, .cons ht hts, List.forall_mem_cons.2 ⟨htb, htsb⟩⟩

theorem covers_products {L : List (List Term)} :
    Covers b (products L) ↔ ∀ l ∈ L, Covers b l := by
  rw [← exists_choice_iff]
  simp only [Covers, products, List.mem_filterMap, List.mem_sections]
  constructor
  · rintro ⟨u, ⟨ts, hts, hu⟩, hub⟩
    exact ⟨ts, hts, ((keptBy_of_foldlM hu).1 hub).2⟩
  · rintro ⟨ts, hts, hb⟩
    have hempty := NameMap.keptBy_empty b
    obtain ⟨u, hu⟩ := exists_foldlM hempty hb
    exact ⟨u, ⟨ts, hts, hu⟩, (keptBy_of_foldlM hu).2 ⟨hempty, hb⟩⟩

end Term

namespace Expr

variable {e f : Expr} {op : Connective} {es fs : List Expr} {v : Bool}

/-! ### The plain distribution -/

mutual

/-- The terms of the expression, or of its negation if `neg`, by plain distribution: those
of a disjunction are those of its operands, and those of a conjunction are all conjunctions
of one term of each operand. -/
def distributionWith (neg : Bool) : Expr → List Term
  | .lit b => if b != neg then [∅] else []
  | .var x => [Term.single x (!neg)]
  | .not e => distributionWith (!neg) e
  | .nary op es =>
    match if neg then op.dual else op with
    | .or => (distributions neg es).flatten
    | .and => Term.products (distributions neg es)

/-- The terms of each operand. -/
def distributions (neg : Bool) : List Expr → List (List Term)
  | [] => []
  | e :: es => distributionWith neg e :: distributions neg es

end

theorem distributions_eq (neg : Bool) (es : List Expr) :
    distributions neg es = es.map (distributionWith neg) := by
  induction es with
  | nil => rfl
  | cons e es ih => rw [distributions, ih, List.map_cons]

theorem covers_distributionWith (neg : Bool) (e : Expr) :
    Covers b (distributionWith neg e) ↔ Forced b e !neg := by
  induction e generalizing neg with
  | lit v =>
    rw [forced_lit_iff]
    cases v <;> cases neg <;>
      simp [distributionWith, Term.covers_singleton, Term.not_covers_nil, NameMap.keptBy_empty]
  | var x => rw [distributionWith, Term.covers_singleton, Term.keptBy_single, forced_var_iff]
  | not e ih => rw [distributionWith, ih, forced_not_iff]
  | nary op es ih =>
    rw [distributionWith, forced_nary_iff, distributions_eq]
    cases if neg then op.dual else op with
    | or =>
      simp only [← List.flatMap_def, Term.covers_flatMap]
      exact exists_congr fun e => and_congr_right fun he => ih e he neg
    | and =>
      simp only [Term.covers_products, List.forall_mem_map]
      exact forall₂_congr fun e he => ih e he neg

/-! ### Pruning -/

theorem irredundant_productTerms {acc : List Term} (h : Irredundant acc) (es : List Expr) :
    Irredundant (productTerms neg acc es) := by
  induction es generalizing acc with
  | nil => exact h
  | cons e es ih =>
    simp only [productTerms]
    split
    · exact Term.irredundant_nil
    · exact ih (Term.irredundant_minimize _)

theorem irredundant_termsWith (neg : Bool) (e : Expr) : Irredundant (termsWith neg e) := by
  induction e generalizing neg with
  | lit b =>
    rw [termsWith]
    split
    · exact Term.irredundant_singleton ∅
    · exact Term.irredundant_nil
  | var x => exact Term.irredundant_singleton _
  | not e ih => exact ih !neg
  | nary op es _ =>
    rw [termsWith]
    cases if neg then op.dual else op with
    | or => exact Term.irredundant_minimize _
    | and => exact irredundant_productTerms (Term.irredundant_singleton ∅) es

theorem termsWith_eq_minimize (neg : Bool) (e : Expr) :
    termsWith neg e = Term.minimize (distributionWith neg e) := by
  refine (irredundant_termsWith neg e).eq_of_covers (Term.irredundant_minimize _) fun b => ?_
  rw [Term.covers_minimize, covers_termsWith, covers_distributionWith]

/-- Expressions that are forced by the same bindings have the same terms. -/
theorem termsWith_congr (h : ∀ b v, Forced b e v ↔ Forced b f v) (neg : Bool) :
    termsWith neg e = termsWith neg f := by
  refine (irredundant_termsWith neg e).eq_of_covers (irredundant_termsWith neg f) fun b => ?_
  rw [covers_termsWith, covers_termsWith, h]

/-! ### Regrouping -/

/-- Expressions that differ only in the order of operands, in repeated operands and in
operands of the same connective that stand for their own operands, at any depth. -/
inductive Regrouped : Expr → Expr → Prop where
  | operands {op : Connective} {es fs : List Expr} :
      (∀ x, x ∈ es ↔ x ∈ fs) → Regrouped (nary op es) (nary op fs)
  | nested (op : Connective) (before inner after : List Expr) :
      Regrouped (nary op (before ++ nary op inner :: after)) (nary op (before ++ inner ++ after))
  | inside (c : Context) {e f : Expr} : Regrouped e f → Regrouped (c.fill e) (c.fill f)
  | refl (e : Expr) : Regrouped e e
  | symm {e f : Expr} : Regrouped e f → Regrouped f e
  | trans {e f g : Expr} : Regrouped e f → Regrouped f g → Regrouped e g

theorem forced_nary_congr
    (hzero : (∃ e ∈ es, Forced b e op.zero) ↔ ∃ f ∈ fs, Forced b f op.zero)
    (hunit : (∀ e ∈ es, Forced b e op.unit) ↔ ∀ f ∈ fs, Forced b f op.unit) :
    Forced b (nary op es) v ↔ Forced b (nary op fs) v := by
  by_cases hv : v = op.zero
  · rw [hv, forced_zero_iff, forced_zero_iff, hzero]
  · rw [Connective.ne_zero_iff.1 hv, forced_unit_iff, forced_unit_iff, hunit]

/-- Where an expression is forced like another one, so are expressions around them. -/
theorem Context.forced_fill_congr (c : Context) (h : ∀ v, Forced b e v ↔ Forced b f v) :
    Forced b (c.fill e) v ↔ Forced b (c.fill f) v := by
  induction c generalizing v with
  | hole => exact h v
  | not c ih => rw [fill, fill, forced_not_iff, forced_not_iff, ih]
  | nary op before c after ih =>
    apply forced_nary_congr
    · simp only [List.mem_append, List.mem_cons, or_and_right, exists_or, exists_eq_left, ih]
    · simp only [List.forall_mem_append, List.forall_mem_cons, ih]

theorem Regrouped.forced_iff (h : Regrouped e f) : Forced b e v ↔ Forced b f v := by
  induction h generalizing v with
  | operands hmem => exact forced_nary_congr (by simp only [hmem]) (by simp only [hmem])
  | nested op before inner after =>
    apply forced_nary_congr
    · simp only [List.mem_append, List.mem_cons, or_and_right, exists_or, exists_eq_left,
        forced_zero_iff, or_assoc]
    · simp only [List.forall_mem_append, List.forall_mem_cons, forced_unit_iff, and_assoc]
  | inside c _ ih => exact c.forced_fill_congr fun v => ih
  | refl e => rfl
  | symm _ ih => exact ih.symm
  | trans _ _ ihe ihf => exact ihe.trans ihf

/-- Pruning early loses nothing.  The terms that are collected with a minimization after
every disjunction and after every factor, and with an early end where no term is left, are
those of the plain distribution minimized once.  So expressions that differ only by
reordering, repeating and regrouping operands have the same normal forms. -/
theorem early_pruning_loses_nothing :
    (∀ (neg : Bool) (e : Expr), termsWith neg e = Term.minimize (distributionWith neg e)) ∧
      ∀ e f : Expr, Regrouped e f → e.dnf = f.dnf ∧ e.cnf = f.cnf := by
  refine ⟨termsWith_eq_minimize, fun e f h => ?_⟩
  have hterms : ∀ neg, termsWith neg e = termsWith neg f :=
    termsWith_congr fun b v => h.forced_iff
  exact ⟨by rw [dnf, dnf, terms, terms, hterms], by rw [cnf, cnf, clauses, clauses, hterms]⟩

/-- Below a negation, a disjunction in another order, with a repeated operand and without the
inner parentheses. -/
theorem regrouped_guard :
    let e := nary .or [var "a", nary .or [var "b", var "c"]]
    let f := nary .or [var "c", var "b", var "a", var "b"]
    let c : Context := .nary .and [var "go"] (.not .hole) []
    Regrouped (c.fill e) (c.fill f) ∧ (c.fill e).dnf = (c.fill f).dnf ∧
      (c.fill e).cnf = (c.fill f).cnf := by
  intro e f c
  have hflat : Regrouped e (nary .or [var "a", var "b", var "c"]) :=
    .nested .or [var "a"] [var "b", var "c"] []
  have horder : Regrouped (nary .or [var "a", var "b", var "c"]) f :=
    .operands fun x => by grind
  have h : Regrouped (c.fill e) (c.fill f) := .inside c (hflat.trans horder)
  exact ⟨h, early_pruning_loses_nothing.2 _ _ h⟩

end Expr

end Moore
