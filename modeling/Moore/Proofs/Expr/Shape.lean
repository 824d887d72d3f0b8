import Moore.Proofs.Expr.Distribution

/-
# The shape of normal forms

A disjunctive normal form joins conjunctions of literals by `or`, a conjunctive one joins
clauses by `and`.  Both are treated at once: `Shaped op` says what the normal form of the
connective `op` looks like, without recourse to how it is made.  Each of its terms stands for
the bindings that decide the whole expression (`decisive`), those under which a term of a
disjunction is true or a clause is false, and these are irredundant.

An expression is of this shape exactly if it is built from irredundant terms
(`shaped_iff`).  Such an expression is decided by these terms (`termsWith_ofTerms`), so its
normal form is built from them again (`normalForm_eq_self_iff`).
-/

namespace Moore

open Term (Covers Irredundant)

/-- The bindings under which a term of a disjunction is true, or a clause is false. -/
def Connective.decisive : Connective → Term → Term
  | or, t => t
  | and, t => t.opposite

namespace Expr

variable {b : Bindings} {op : Connective} {e : Expr} {es : List Expr} {t : Term} {ts : List Term}
  {v : Bool}

/-- The expression is the input of this name, if the polarity is positive, or its negation. -/
inductive IsLiteral : Expr → String × Bool → Prop where
  | var (x : String) : IsLiteral (var x) (x, true)
  | not (x : String) : IsLiteral (not (var x)) (x, false)

/-- The expression is the literals of the term, in the order of their names, joined by the
connective; a single literal stands alone. -/
inductive IsTerm (op : Connective) : Expr → Term → Prop where
  | single {e : Expr} {t : Term} {l : String × Bool} :
      t.entries = [l] → IsLiteral e l → IsTerm op e t
  | several {es : List Expr} {t : Term} :
      2 ≤ es.length → List.Forall₂ IsLiteral es t.entries → IsTerm op (nary op es) t

/-- The shape of a normal form: a constant, or terms joined by the connective, a single one
standing alone.  No term contains another, and they strictly increase, by their number of
literals and then literal by literal; clauses do so with the polarities exchanged. -/
inductive Shaped (op : Connective) : Expr → Prop where
  | constant (b : Bool) : Shaped op (lit b)
  | single {e : Expr} {t : Term} : IsTerm op.dual e t → Shaped op e
  | several {es : List Expr} {ts : List Term} :
      2 ≤ es.length → List.Forall₂ (IsTerm op.dual) es ts → Irredundant (ts.map op.decisive) →
      Shaped op (nary op es)

/-- The normal form of a connective: the disjunctive one of `or`, the conjunctive one of
`and`. -/
def normalForm (op : Connective) (e : Expr) : Expr :=
  ofTerms op ((termsWith op.unit e).map op.decisive)

theorem dnf_eq (e : Expr) : e.dnf = normalForm .or e := by
  rw [normalForm, dnf, terms]
  exact congrArg (ofTerms .or) (List.map_id' _).symm

theorem cnf_eq (e : Expr) : e.cnf = normalForm .and e := rfl

/-! ### Expressions built from terms have the shape -/

theorem isLiteral_literal (l : String × Bool) : IsLiteral (literal l) l := by
  obtain ⟨x, p⟩ := l
  cases p with
  | false => exact .not x
  | true => exact .var x

theorem IsLiteral.eq_literal {l : String × Bool} (h : IsLiteral e l) : e = literal l := by
  cases h <;> rfl

theorem eq_map_of_forall₂ {α β : Type} {R : α → β → Prop} {f : β → α} {l : List α} {m : List β}
    (h : List.Forall₂ R l m) (hR : ∀ a b, R a b → a = f b) : l = m.map f := by
  have heq : List.Forall₂ Eq l (m.map f) := List.forall₂_map_right_iff.2 (h.imp hR)
  rwa [List.forall₂_eq_eq_eq] at heq

theorem isTerm_joined (h : t ≠ ∅) : IsTerm op (joined op (t.entries.map literal)) t := by
  match hl : t.entries with
  | [] => exact absurd (NameMap.ext hl) h
  | [l] => exact .single hl (isLiteral_literal l)
  | l :: m :: ls =>
    have hlits : List.Forall₂ IsLiteral ((l :: m :: ls).map literal) (l :: m :: ls) :=
      List.forall₂_map_left_iff.2 (List.forall₂_same.2 fun l _ => isLiteral_literal l)
    exact .several (by simp) (hl ▸ hlits)

theorem IsTerm.eq_joined (h : IsTerm op e t) : e = joined op (t.entries.map literal) := by
  cases h with
  | single hl h =>
    rw [hl, h.eq_literal]
    rfl
  | several hlen h =>
    rw [← eq_map_of_forall₂ h fun _ _ => IsLiteral.eq_literal, joined_eq_nary hlen]

/-- Several terms without the empty one, which every term contains. -/
theorem ne_empty_of_irredundant {u : Term} (h : Irredundant (t :: u :: ts)) :
    ∀ s ∈ t :: u :: ts, s ≠ ∅ := by
  rintro _ hs rfl
  have heq : ∀ s ∈ t :: u :: ts, ∅ = s := fun s hs' =>
    h.incomparable _ hs s hs' (NameMap.keptBy_empty s)
  have htu : t = u := (heq t (by simp)).symm.trans (heq u (by simp))
  exact (List.nodup_cons.1 h.increasing.nodup).1 (htu ▸ List.mem_cons_self)

/-- The shape is that of the expressions built from irredundant terms. -/
theorem shaped_iff :
    Shaped op e ↔ ∃ ts, Irredundant (ts.map op.decisive) ∧ e = ofTerms op ts := by
  constructor
  · intro h
    cases h with
    | constant b =>
      by_cases hb : b = op.zero
      · exact ⟨[∅], Term.irredundant_singleton _, by rw [hb, ← op.unit_dual]; rfl⟩
      · exact ⟨[], Term.irredundant_nil, by rw [Connective.ne_zero_iff.1 hb]; rfl⟩
    | single h => exact ⟨[_], Term.irredundant_singleton _, h.eq_joined⟩
    | several hlen h hts =>
      refine ⟨_, hts, ?_⟩
      rw [ofTerms, ← eq_map_of_forall₂ h fun _ _ => IsTerm.eq_joined, joined_eq_nary hlen]
  · rintro ⟨ts, h, rfl⟩
    rcases ts with _ | ⟨t, _ | ⟨u, ts⟩⟩
    · exact .constant op.unit
    · by_cases ht : t = ∅
      · rw [ht]
        exact .constant op.dual.unit
      · exact .single (isTerm_joined ht)
    · have hne : ∀ s ∈ t :: u :: ts, s ≠ ∅ := by
        rintro _ hs rfl
        refine ne_empty_of_irredundant h _ (List.mem_map_of_mem hs) ?_
        cases op <;> rfl
      have hterms : List.Forall₂ (IsTerm op.dual)
          ((t :: u :: ts).map fun t => joined op.dual (t.entries.map literal)) (t :: u :: ts) :=
        List.forall₂_map_left_iff.2 (List.forall₂_same.2 fun s hs => isTerm_joined (hne s hs))
      exact .several (by simp) hterms h

/-! ### They are decided by their terms -/

theorem decisive_decisive (op : Connective) (t : Term) : op.decisive (op.decisive t) = t := by
  cases op with
  | or => rfl
  | and => exact t.opposite_opposite

theorem map_decisive_decisive (op : Connective) (ts : List Term) :
    (ts.map op.decisive).map op.decisive = ts := by
  simp [Function.comp_def, decisive_decisive]

theorem keptBy_decisive_iff :
    (op.decisive t).KeptBy b ↔ ∀ l ∈ t.entries, b.get? l.1 = some (l.2 == op.zero) := by
  rw [NameMap.keptBy_iff_entries]
  cases op with
  | or => simp [Connective.decisive, Connective.zero, Connective.unit]
  | and =>
    simp only [Connective.decisive, Term.opposite, NameMap.mapValues, List.forall_mem_map]
    simp [Connective.zero, Connective.unit]

theorem forced_literal_iff {l : String × Bool} :
    Forced b (literal l) v ↔ b.get? l.1 = some (l.2 == v) := by
  obtain ⟨x, p⟩ := l
  cases p with
  | false => simp [literal, forced_not_iff, forced_var_iff]
  | true => simp [literal, forced_var_iff]

theorem forced_joined_iff : Forced b (joined op es) v ↔ Forced b (nary op es) v := by
  by_cases hv : v = op.zero
  · subst hv
    match es with
    | [] => simp [forced_lit_iff, forced_zero_iff, Connective.ne_zero_iff]
    | [e] => simp [forced_zero_iff]
    | _ :: _ :: _ => rfl
  · obtain rfl := Connective.ne_zero_iff.1 hv
    match es with
    | [] => simp [forced_lit_iff, forced_unit_iff]
    | [e] => simp [forced_unit_iff]
    | _ :: _ :: _ => rfl

/-- What is built from terms is decided where they say. -/
theorem forced_ofTerms_iff :
    Forced b (ofTerms op ts) op.zero ↔ Covers b (ts.map op.decisive) := by
  have hterm : ∀ t : Term, Forced b (joined op.dual (t.entries.map literal)) op.zero ↔
      (op.decisive t).KeptBy b := by
    intro t
    rw [forced_joined_iff, ← op.unit_dual, forced_unit_iff, List.forall_mem_map, op.unit_dual,
      keptBy_decisive_iff]
    exact forall₂_congr fun l _ => forced_literal_iff
  rw [ofTerms, forced_joined_iff, forced_zero_iff]
  simp only [Covers, List.mem_map, exists_exists_and_eq_and, hterm]

theorem termsWith_ofTerms (h : Irredundant (ts.map op.decisive)) :
    termsWith op.unit (ofTerms op ts) = ts.map op.decisive := by
  refine (irredundant_termsWith _ _).eq_of_covers h fun b => ?_
  rw [covers_termsWith]
  exact forced_ofTerms_iff

/-! ### Normal forms -/

theorem shaped_normalForm (op : Connective) (e : Expr) : Shaped op (normalForm op e) := by
  refine shaped_iff.2 ⟨_, ?_, rfl⟩
  rw [map_decisive_decisive]
  exact irredundant_termsWith op.unit e

theorem normalForm_eq_self_iff : normalForm op e = e ↔ Shaped op e := by
  constructor
  · intro h
    exact h ▸ shaped_normalForm op e
  · intro h
    obtain ⟨ts, hts, rfl⟩ := shaped_iff.1 h
    rw [normalForm, termsWith_ofTerms hts, map_decisive_decisive]

/-- The normal forms have the shape that their names promise: constants, or terms over
increasing inputs of which none contains another, in increasing order.  The expressions of
this shape are exactly those that a transformation to normal form does not change; so doing
it again changes nothing. -/
theorem normal_forms_shaped (e : Expr) :
    (Shaped .or e.dnf ∧ Shaped .and e.cnf) ∧
      (e.dnf = e ↔ Shaped .or e) ∧ (e.cnf = e ↔ Shaped .and e) ∧
      e.dnf.dnf = e.dnf ∧ e.cnf.cnf = e.cnf := by
  have hdnf : ∀ f : Expr, f.dnf = f ↔ Shaped .or f := fun f => by
    rw [dnf_eq, normalForm_eq_self_iff]
  have hcnf : ∀ f : Expr, f.cnf = f ↔ Shaped .and f := fun f => by
    rw [cnf_eq, normalForm_eq_self_iff]
  have hor : Shaped .or e.dnf := by
    rw [dnf_eq]
    exact shaped_normalForm .or e
  have hand : Shaped .and e.cnf := shaped_normalForm .and e
  exact ⟨⟨hor, hand⟩, hdnf e, hcnf e, (hdnf _).2 hor, (hcnf _).2 hand⟩

end Expr

end Moore
