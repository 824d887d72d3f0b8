import Moore.Proofs.Expr.Normal

/-
# Simplification in context

What a node simplifies to depends only on the set of its simplified operands
(`simplifyNode_congr`): the operands are collected into a sorted list, and the constant that
decides a node decides it wherever it stands.  Since an expression is simplified through its
operands alone, two facts follow for expressions with a hole, by induction on the hole's
surroundings.  Reordering or repeating operands at any depth changes nothing
(`Rearranged.simplify_eq`), and expressions that simplify alike may replace each other in
every context (`Context.simplify_fill_congr`).
-/

namespace Moore.Expr

variable {e f : Expr} {op : Connective} {es fs : List Expr}

/-- An expression with a hole in it. -/
inductive Context where
  | hole
  | not (c : Context)
  | nary (op : Connective) (before : List Expr) (c : Context) (after : List Expr)

/-- The context with an expression in place of the hole. -/
def Context.fill (e : Expr) : Context → Expr
  | hole => e
  | not c => .not (c.fill e)
  | nary op before c after => .nary op (before ++ c.fill e :: after)

/-- Expressions that differ only in the order of operands and in repeated operands, at any
depth. -/
inductive Rearranged : Expr → Expr → Prop where
  | operands {op : Connective} {es fs : List Expr} :
      (∀ x, x ∈ es ↔ x ∈ fs) → Rearranged (nary op es) (nary op fs)
  | inside (c : Context) {e f : Expr} : Rearranged e f → Rearranged (c.fill e) (c.fill f)
  | refl (e : Expr) : Rearranged e e
  | symm {e f : Expr} : Rearranged e f → Rearranged f e
  | trans {e f g : Expr} : Rearranged e f → Rearranged f g → Rearranged e g

/-! ### Nodes -/

theorem collect_congr (h : ∀ x, x ∈ es ↔ x ∈ fs) : collect op es = collect op fs :=
  (strict_collect op es).eq_of_mem_iff (strict_collect op fs) fun x => by
    simp only [mem_collect, h]

/-- A node simplifies by the set of its operands. -/
theorem simplifyNode_congr (h : ∀ x, x ∈ es ↔ x ∈ fs) :
    simplifyNode op es = simplifyNode op fs := by
  have hzero : es.contains (lit op.zero) = fs.contains (lit op.zero) := by
    rw [Bool.eq_iff_iff, List.contains_iff_mem, List.contains_iff_mem, h]
  simp only [simplifyNode, collect_congr h, hzero]

theorem simplify_nary_congr (h : ∀ x, x ∈ es.map simplify ↔ x ∈ fs.map simplify) :
    (nary op es).simplify = (nary op fs).simplify := by
  rw [simplify_nary, simplify_nary, simplifyNode_congr h]

/-! ### Contexts -/

namespace Context

/-- Expressions that simplify alike are alike in every context. -/
theorem simplify_fill_congr (c : Context) (h : e.simplify = f.simplify) :
    (c.fill e).simplify = (c.fill f).simplify := by
  induction c with
  | hole => exact h
  | not c ih => rw [fill, fill, simplify_not, simplify_not, ih]
  | nary op before c after ih => simp only [fill, simplify_nary, List.map_append, List.map_cons, ih]

theorem simplify_fill_simplify (c : Context) (e : Expr) :
    (c.fill e).simplify = (c.fill e.simplify).simplify :=
  c.simplify_fill_congr (simplify_simplify e).symm

end Context

theorem Rearranged.simplify_eq (h : Rearranged e f) : e.simplify = f.simplify := by
  induction h with
  | @operands op es fs hmem =>
    refine simplify_nary_congr fun x => ?_
    simp only [List.mem_map, hmem]
  | inside c _ ih => exact c.simplify_fill_congr ih
  | refl e => rfl
  | symm _ ih => exact ih.symm
  | trans _ _ ihe ihf => exact ihe.trans ihf

/-- Simplification depends on operands as a set and is a congruence.  Nodes over the same
simplified operands simplify to the same expression; so do expressions that differ by
reordering and repeating operands at any depth; and what simplifies alike simplifies alike
in every context, an expression and its simplified form among others. -/
theorem simplify_is_congruence :
    (∀ (op : Connective) (es fs : List Expr),
        (∀ x, x ∈ es.map simplify ↔ x ∈ fs.map simplify) →
        (nary op es).simplify = (nary op fs).simplify) ∧
      (∀ e f : Expr, Rearranged e f → e.simplify = f.simplify) ∧
      (∀ (c : Context) (e f : Expr), e.simplify = f.simplify →
        (c.fill e).simplify = (c.fill f).simplify) ∧
      (∀ (c : Context) (e : Expr), (c.fill e).simplify = (c.fill e.simplify).simplify) := by
  refine ⟨?_, ?_, ?_, ?_⟩
  · intro op es fs h
    exact simplify_nary_congr h
  · intro e f h
    exact h.simplify_eq
  · intro c e f h
    exact c.simplify_fill_congr h
  · intro c e
    exact c.simplify_fill_simplify e

/-- Below a negation a disjunction may be written in another order, with an operand repeated
or with `!!a` for `a`. -/
theorem repeated_operands_dropped :
    let es := [var "b", not (not (var "a")), var "b"]
    let e := nary .or [var "b", var "a", var "b"]
    let f := nary .or [var "a", var "b"]
    let c : Context := .nary .and [var "go"] (.not .hole) []
    (∀ x, x ∈ es.map simplify ↔ x ∈ [var "a", var "b"].map simplify) ∧
      (nary .or es).simplify = f.simplify ∧
      Rearranged (c.fill e) (c.fill f) ∧ (c.fill e).simplify = (c.fill f).simplify ∧
      (c.fill (nary .or es)).simplify = (c.fill f).simplify := by
  intro es e f c
  have hmem : ∀ x, x ∈ es.map simplify ↔ x ∈ [var "a", var "b"].map simplify := by
    intro x
    simp only [es, List.map_cons, List.map_nil, simplify_not, simplify_var, negated]
    grind
  have hes : (nary .or es).simplify = f.simplify :=
    simplify_is_congruence.1 .or es [var "a", var "b"] hmem
  have hre : Rearranged (c.fill e) (c.fill f) := by
    refine .inside c (.operands fun x => ?_)
    grind
  exact ⟨hmem, hes, hre, simplify_is_congruence.2.1 _ _ hre,
    simplify_is_congruence.2.2.1 c _ _ hes⟩

end Moore.Expr
