import Moore.Expr.Relational
import Moore.Expr.Truth
import Moore.Proofs.Except
import Moore.Proofs.Expr.Relational

/-
# Lowering preserves meaning

The relational text of an expression has a derivation with the value of the expression
(`exists_lowered`).  Parentheses are dropped only where a chain may stand in the place of
an operand: an operand of the same connective runs on into the chain around it
(`Relational.exists_append`), and a conjunction stands in a disjunction as it is
(`Relational.ofChain`).
-/

namespace Moore.Expr

open Moore.Relational

variable {e : Expr} {op : Connective} {es : List Expr}

attribute [local simp] lower lowerAll

theorem eval_nary_cons (σ : String → Bool) (op : Connective) (e : Expr) (es : List Expr) :
    (nary op (e :: es)).eval σ = op.combine (e.eval σ) ((nary op es).eval σ) := by
  cases op <;> simp [Connective.combine]

theorem eval_nary_singleton (σ : String → Bool) (op : Connective) (e : Expr) :
    (nary op [e]).eval σ = e.eval σ := by
  cases op <;> simp

/-- Where `context` is wanted, the expression is lowered to the text of a derivation with its
value. -/
def LoweredTo {p : Phrase} (e : Expr) (context : Nat) (r : Relational p) : Prop :=
  e.lower context = .ok r.chars ∧ ∀ σ, r.eval σ = e.eval σ

theorem LoweredTo.ofUnit {u : Relational .factor} {p : Phrase} {context : Nat}
    (h : e.LoweredTo context u) : e.LoweredTo context (Relational.ofUnit u p) := by
  obtain ⟨hchars, hσ⟩ := h
  exact ⟨by rw [hchars, chars_ofUnit], fun σ => by rw [eval_ofUnit, hσ]⟩

theorem lower_lit (b : Bool) (context : Nat) :
    (lit b).lower context = .ok (constant b).chars := by
  cases b <;> rfl

theorem lower_var (x : Identifier) (context : Nat) :
    (var x.1).lower context = .ok (level x true).chars := rfl

theorem lower_not_var (x : Identifier) (context : Nat) :
    (not (var x.1)).lower context = .ok (level x false).chars := rfl

/-- Only a negated input is lowered without `not`. -/
theorem lower_not {context : Nat} (h : ∀ x, e ≠ var x) :
    (not e).lower context =
      (e.lower 3).map fun t => "not (".toList ++ t ++ [')'] := by
  cases e with
  | var x => exact absurd rfl (h x)
  | lit | not | nary => rfl

/-- Operands that run on into the chain around them. -/
theorem exists_lowerAll (hes : es ≠ [])
    (h : ∀ e ∈ es, ∃ r : Relational (.chain op), e.LoweredTo op.precedence r) :
    ∃ r : Relational (.chain op), lowerAll op es = .ok r.chars ∧
      ∀ σ, r.eval σ = (nary op es).eval σ := by
  induction es with
  | nil => exact absurd rfl hes
  | cons e es ih =>
    obtain ⟨⟨r, hr, hrσ⟩, htail⟩ := List.forall_mem_cons.1 h
    cases es with
    | nil => exact ⟨r, by rw [lowerAll, hr], fun σ => by rw [hrσ, eval_nary_singleton]⟩
    | cons f es =>
      obtain ⟨s, hs, hsσ⟩ := ih (List.cons_ne_nil f es) htail
      obtain ⟨t, ht, htσ⟩ := exists_append r rfl s
      refine ⟨t, ?_, fun σ => by rw [htσ, hrσ, hsσ, ← eval_nary_cons]⟩
      simp [hr, hs, ht, joint, bind, Except.bind, pure, Except.pure]

/-- A node in the place of a phrase that binds tighter stands in parentheses, and otherwise
its chain stands there as it is. -/
theorem lower_nary {r : Relational (.chain op)} (hes : 2 ≤ es.length)
    (h : lowerAll op es = .ok r.chars) (hσ : ∀ σ, r.eval σ = (nary op es).eval σ) (p : Phrase) :
    ∃ s : Relational p, (nary op es).LoweredTo p.precedence s := by
  have hlower : ∀ context, (nary op es).lower context =
      .ok (if op.precedence < context then '(' :: r.chars ++ [')'] else r.chars) := by
    intro context
    rw [lower, if_neg (Nat.not_lt.2 hes), h]
    rfl
  by_cases hlt : op.precedence < p.precedence
  · refine ⟨_, LoweredTo.ofUnit (u := grouped (ofChain r)) ⟨?_, fun σ => ?_⟩⟩
    · rw [hlower, if_pos hlt, chars_grouped, chars_ofChain]
    · rw [Relational.eval, eval_ofChain, hσ]
  · have hbare : (nary op es).lower p.precedence = .ok r.chars := by
      rw [hlower, if_neg hlt]
    cases p with
    | factor => exact absurd (by cases op <;> decide) hlt
    | chain op' =>
      cases op' with
      | or => exact ⟨ofChain r, by rw [hbare, chars_ofChain], fun σ => by rw [eval_ofChain, hσ]⟩
      | and =>
        cases op with
        | and => exact ⟨r, hbare, hσ⟩
        | or => exact absurd (by decide) hlt

/-- Every proper expression over identifiers is lowered, and means the same in each place. -/
theorem exists_lowered (hp : e.Proper) (hn : ∀ x ∈ e.occurrences, isIdentifier x = true)
    (p : Phrase) : ∃ r : Relational p, e.LoweredTo p.precedence r := by
  induction e generalizing p with
  | lit b =>
    exact ⟨_, LoweredTo.ofUnit ⟨lower_lit b _, fun σ => (eval_lit σ b).symm⟩⟩
  | var x =>
    have hx : isIdentifier x = true := hn x (by simp)
    refine ⟨_, LoweredTo.ofUnit ⟨lower_var ⟨x, hx⟩ _, fun σ => ?_⟩⟩
    simp [Relational.eval]
  | not e ih =>
    by_cases hvar : ∃ x, e = var x
    · obtain ⟨x, rfl⟩ := hvar
      have hx : isIdentifier x = true := hn x (by simp)
      refine ⟨_, LoweredTo.ofUnit ⟨lower_not_var ⟨x, hx⟩ _, fun σ => ?_⟩⟩
      simp [Relational.eval]
    · cases hp with
      | not hp =>
        obtain ⟨u, hu, hσ⟩ := ih hp (by simpa using hn) .factor
        have hu : e.lower 3 = .ok u.chars := hu
        refine ⟨_, LoweredTo.ofUnit (u := .negated (Relational.ofUnit u (.chain .or)))
          ⟨?_, fun σ => ?_⟩⟩
        · rw [lower_not fun x hx => hvar ⟨x, hx⟩, hu, chars_negated, chars_ofUnit]
          rfl
        · rw [Relational.eval, eval_ofUnit, hσ, eval_not]
  | nary op es ih =>
    cases hp with
    | nary hlen hes =>
      have hne : es ≠ [] := by
        rintro rfl
        simp at hlen
      obtain ⟨r, hr, hσ⟩ := exists_lowerAll hne fun e he =>
        ih e he (hes e he) (fun x hx => hn x (mem_occurrences_nary.2 ⟨e, he, hx⟩)) (.chain op)
      exact lower_nary hlen hr hσ p

/-- Outermost, a disjunction may stand as it is. -/
theorem lower_outermost (e : Expr) : e.lower 0 = e.lower Connective.or.precedence := by
  cases e with
  | nary op es => cases op <;> simp [Connective.precedence]
  | not e => cases e <;> simp
  | lit b => cases b <;> simp
  | var x => simp

theorem exists_relational (hp : e.Proper) (hn : ∀ x ∈ e.inputs, isIdentifier x = true) :
    ∃ t, e.relational = .ok t ∧ ∃ r : Relational (.chain .or), r.chars = t.toList ∧
      ∀ σ, r.eval σ = e.eval σ := by
  obtain ⟨r, hr, hσ⟩ := exists_lowered hp (fun x hx => hn x (mem_inputs.2 hx)) (.chain .or)
  have hr : e.lower Connective.or.precedence = .ok r.chars := hr
  refine ⟨String.ofList r.chars, ?_, r, String.toList_ofList.symm, hσ⟩
  rw [relational, lower_outermost, hr]
  rfl

/-! ### What has a relational text -/

theorem exists_lower_of_lowerAll {cs : List Char} (h : lowerAll op es = .ok cs) :
    ∀ e ∈ es, ∃ t, e.lower op.precedence = .ok t := by
  induction es generalizing cs with
  | nil => exact List.forall_mem_nil _
  | cons e es ih =>
    cases es with
    | nil =>
      rw [lowerAll] at h
      exact List.forall_mem_singleton.2 ⟨cs, h⟩
    | cons f es =>
      simp only [lowerAll, bind_eq_ok_iff] at h
      obtain ⟨first, hfirst, rest, hrest, -⟩ := h
      exact List.forall_mem_cons.2 ⟨⟨first, hfirst⟩, ih hrest⟩

/-- Nodes with fewer than two operands are refused, wherever they are. -/
theorem proper_of_lower {context : Nat} {cs : List Char} (h : e.lower context = .ok cs) :
    e.Proper := by
  induction e generalizing context cs with
  | lit b => exact .lit b
  | var x => exact .var x
  | not e ih =>
    by_cases hvar : ∃ x, e = var x
    · obtain ⟨x, rfl⟩ := hvar
      exact .not (.var x)
    · rw [lower_not fun x hx => hvar ⟨x, hx⟩, map_eq_ok_iff] at h
      obtain ⟨t, ht, -⟩ := h
      exact .not (ih ht)
  | nary op es ih =>
    rw [lower] at h
    split at h
    · cases h
    · next hlen =>
      obtain ⟨t, ht, -⟩ := map_eq_ok_iff.1 h
      refine .nary (Nat.le_of_not_lt hlen) fun e he => ?_
      obtain ⟨te, hte⟩ := exists_lower_of_lowerAll ht e he
      exact ih e he hte

theorem proper_of_relational {t : String} (h : e.relational = .ok t) : e.Proper := by
  obtain ⟨cs, hcs, -⟩ := map_eq_ok_iff.1 h
  exact proper_of_lower hcs

theorem exists_lowerAll_of_forall (h : ∀ e ∈ es, ∃ t, e.lower op.precedence = .ok t) :
    ∃ t, lowerAll op es = .ok t := by
  induction es with
  | nil => exact ⟨[], by rw [lowerAll]⟩
  | cons e es ih =>
    obtain ⟨⟨first, hfirst⟩, htail⟩ := List.forall_mem_cons.1 h
    cases es with
    | nil => exact ⟨first, by rw [lowerAll, hfirst]⟩
    | cons f es =>
      obtain ⟨rest, hrest⟩ := ih htail
      simp only [lowerAll, bind_eq_ok_iff]
      exact ⟨_, first, hfirst, rest, hrest, rfl⟩

theorem exists_lower_of_proper (h : e.Proper) (context : Nat) :
    ∃ t, e.lower context = .ok t := by
  induction e generalizing context with
  | lit b => exact ⟨_, lower_lit b context⟩
  | var x => exact ⟨_, by rw [lower]⟩
  | not e ih =>
    by_cases hvar : ∃ x, e = var x
    · obtain ⟨x, rfl⟩ := hvar
      exact ⟨_, by rw [lower]⟩
    · obtain ⟨t, ht⟩ := ih (proper_not_iff.1 h) 3
      exact ⟨_, by rw [lower_not fun x hx => hvar ⟨x, hx⟩, ht, Except.map]⟩
  | nary op es ih =>
    obtain ⟨hlen, hes⟩ := proper_nary_iff.1 h
    have hall : ∀ e ∈ es, ∃ t, e.lower op.precedence = .ok t := fun e he =>
      ih e he (hes e he) op.precedence
    obtain ⟨t, ht⟩ := exists_lowerAll_of_forall hall
    exact ⟨_, by rw [lower, if_neg (Nat.not_lt.2 hlen), ht, Except.map]⟩

/-- Nothing but a node with fewer than two operands is in the way of a relational text. -/
theorem exists_relational_iff : (∃ t, e.relational = .ok t) ↔ e.Proper := by
  constructor
  · rintro ⟨t, ht⟩
    exact proper_of_relational ht
  · intro h
    obtain ⟨t, ht⟩ := exists_lower_of_proper h 0
    exact ⟨_, by rw [relational, ht, Except.map]⟩

/-- Lowering preserves meaning.  An expression with two operands or more at each node and
identifiers as inputs has a relational text, the whole text has exactly one derivation, and
the value of this is the value of the expression under every assignment.  So expressions
with the same relational text are equivalent. -/
theorem lowering_preserves_meaning :
    (∀ e : Expr, e.Proper → (∀ x ∈ e.inputs, isIdentifier x = true) →
        ∃ t, e.relational = .ok t ∧ ∃ r : Relational (.chain .or), r.chars = t.toList ∧
          (∀ r' : Relational (.chain .or), r'.chars = t.toList → r' = r) ∧
          ∀ σ, r.eval σ = e.eval σ) ∧
      (∀ (e e' : Expr) (t : String), (∀ x ∈ e.inputs, isIdentifier x = true) →
        (∀ x ∈ e'.inputs, isIdentifier x = true) → e.relational = .ok t →
        e'.relational = .ok t → ∀ σ, e.eval σ = e'.eval σ) := by
  constructor
  · intro e hp hn
    obtain ⟨t, ht, r, hr, hσ⟩ := exists_relational hp hn
    exact ⟨t, ht, r, hr, fun r' hr' => eq_of_chars_eq (hr'.trans hr.symm), hσ⟩
  · intro e e' t hn hn' ht ht' σ
    obtain ⟨u, hu, r, hr, hσ⟩ := exists_relational (proper_of_relational ht) hn
    obtain ⟨u', hu', r', hr', hσ'⟩ := exists_relational (proper_of_relational ht') hn'
    obtain rfl : t = u := Except.ok.inj (ht.symm.trans hu)
    obtain rfl : t = u' := Except.ok.inj (ht'.symm.trans hu')
    obtain rfl : r = r' := eq_of_chars_eq (hr.trans hr'.symm)
    rw [← hσ, hσ']

/-- A conjunction within a conjunction loses its parentheses, and the value stays. -/
theorem nested_conjunction_lowered :
    let e := nary .and [nary .and [var "a", not (var "b")], nary .or [var "c", lit false]]
    let e' := nary .and [var "a", not (var "b"), nary .or [var "c", lit false]]
    let t := "a='1' and b='0' and (c='1' or false)"
    e.relational = .ok t ∧ e'.relational = .ok t ∧
      (∃ r : Relational (.chain .or), r.chars = t.toList ∧ ∀ σ, r.eval σ = e.eval σ) ∧
      ∀ σ, e.eval σ = e'.eval σ := by
  intro e e' t
  have hp : e.Proper := by simp [e]
  have hn : ∀ x ∈ e.inputs, isIdentifier x = true := by decide
  have hn' : ∀ x ∈ e'.inputs, isIdentifier x = true := by decide
  have ht : e.relational = .ok t := rfl
  have ht' : e'.relational = .ok t := rfl
  obtain ⟨u, hu, r, hr, -, hσ⟩ := lowering_preserves_meaning.1 e hp hn
  obtain rfl : t = u := Except.ok.inj (ht.symm.trans hu)
  exact ⟨ht, ht', ⟨r, hr, hσ⟩, lowering_preserves_meaning.2 e e' t hn hn' ht ht'⟩

end Moore.Expr
