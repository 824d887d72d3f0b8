import Moore.Proofs.Expr.Context

/-
# Where the complement and absorption laws apply

The laws look for whole operands, and the operands of a node of the same connective have
been opened before.  So `e & !e` becomes false unless `e` or its negation simplifies to a
conjunction, and `e & (e | f)` becomes `e` if the disjunction brings no operand that is not
absorbed by one of `e` (`Superfluous`); the same holds with the connectives exchanged.  For
constants, inputs and their negations, and as long as `f` absorbs no operand of `e`, for
nodes of the other connective, this is always so.
-/

namespace Moore.Expr

variable {e f g s t x : Expr} {op : Connective} {es : List Expr}

/-! ### Normal expressions and their operands -/

theorem Normal.operandsOf_ne_nil (h : e.Normal) (op : Connective) : operandsOf op e ≠ [] := by
  intro hnil
  rcases operandsOf_cases op e with he | he
  · rw [hnil] at he
    rw [he] at h
    cases h with
    | nary hlen _ _ => simp at hlen
  · rw [hnil] at he
    cases he

/-- A normal expression is its operands joined. -/
theorem Normal.joined_operandsOf (h : e.Normal) (op : Connective) :
    Expr.joined op (operandsOf op e) = e := by
  rcases operandsOf_cases op e with he | he
  · generalize operandsOf op e = es at he
    subst he
    cases h with
    | nary hlen _ _ =>
      match es with
      | _ :: _ :: _ => rfl
  · rw [he, joined_singleton]

theorem operandsOf_joined (hne : es ≠ []) (h : ∀ e ∈ es, Plain op e) :
    operandsOf op (joined op es) = es := by
  match es with
  | [e] => exact (h e (List.mem_singleton_self e)).operandsOf_eq
  | _ :: _ :: _ => simp [operandsOf]

/-- Normal expressions with the same operands are the same. -/
theorem Normal.eq_of_operandsOf_subset (he : e.Normal) (hf : f.Normal)
    (hef : operandsOf op e ⊆ operandsOf op f) (hfe : operandsOf op f ⊆ operandsOf op e) :
    e = f := by
  have hops : operandsOf op e = operandsOf op f :=
    (he.strict_operandsOf op).eq_of_mem_iff (hf.strict_operandsOf op) fun x =>
      ⟨fun hx => hef hx, fun hx => hfe hx⟩
  rw [← he.joined_operandsOf op, hops, hf.joined_operandsOf op]

/-- The negation of an expression is larger than its operands. -/
theorem negation_not_mem_operandsOf (op : Connective) (e : Expr) : not e ∉ operandsOf op e := by
  intro hmem
  rcases operandsOf_cases op e with he | he
  · have hlt := List.sizeOf_lt_of_mem hmem
    have hsize := congrArg sizeOf he
    simp at hlt hsize
    omega
  · rw [he, List.mem_singleton] at hmem
    exact ne_not_self e hmem.symm

/-! ### Nodes of two simplified operands -/

theorem mem_collect_pair (hs : ∀ b, s ≠ lit b) (hg : ∀ b, g ≠ lit b) :
    x ∈ collect op [s, g] ↔ x ∈ operandsOf op s ∨ x ∈ operandsOf op g := by
  simp [mem_collect, hs, hg]

theorem zero_not_mem_pair (hs : ∀ b, s ≠ lit b) (hg : ∀ b, g ≠ lit b) :
    lit op.zero ∉ [s, g] := by
  simp [(hs op.zero).symm, (hg op.zero).symm]

/-- The operands that a node is left with do not decide it. -/
theorem joined_ne_zero (h : ∀ e ∈ es, Plain op e) : joined op es ≠ lit op.zero := by
  match es with
  | [] =>
    intro hzero
    cases op <;> simp [Connective.zero, Connective.unit] at hzero
  | [e] => exact (h e (List.mem_singleton_self e)).1 op.zero
  | _ :: _ :: _ => simp

/-- Simplified operands decide their node if one of them is the constant that does or if one
stands beside its negation. -/
theorem simplifyNode_eq_zero_iff (h : ∀ e ∈ es, e.Normal) : simplifyNode op es = lit op.zero ↔
    lit op.zero ∈ es ∨ ∃ e ∈ collect op es, not e ∈ collect op es := by
  rw [← hasComplement_eq_true_iff, simplifyNode]
  split
  · next hdecided => simpa using hdecided
  · next hdecided =>
    have hne : joined op (absorb op (collect op es)) ≠ lit op.zero :=
      joined_ne_zero (plain_of_mem_kept h)
    simpa [hne] using hdecided

/-! ### The complement law -/

theorem negated_ne_lit (h : ∀ b, s ≠ lit b) (hs : s.Normal) (b : Bool) : negated s ≠ lit b := by
  cases hs with
  | lit c => exact absurd rfl (h c)
  | not _ hlit _ => exact hlit b
  | var | nary => simp [negated]

/-- Opened operands do not stand beside the negation of their node. -/
theorem simplifyNode_opened_ne_zero (h : (nary op es).Normal) :
    simplifyNode op [nary op es, not (nary op es)] ≠ lit op.zero := by
  have hnot : (not (nary op es)).Normal := .not h (by simp) (by simp)
  rw [ne_eq, simplifyNode_eq_zero_iff (by simp [h, hnot])]
  simp only [mem_collect_pair (s := nary op es) (g := not (nary op es)) (by simp) (by simp)]
  cases h with
  | nary hlen hes hn =>
    -- A negated operand beside the operands is either one of them or the negation of the node.
    rintro (hzero | ⟨e, he, hne⟩)
    · simp at hzero
    · simp only [operandsOf, if_pos, List.mem_singleton] at he hne
      rcases hne with hne | hne
      · rcases he with he | rfl
        · exact hes.consistent e he hne
        · cases hn _ hne with
          | not _ _ hdouble => exact hdouble _ rfl
      · obtain rfl := not.inj hne
        rcases he with he | he
        · exact (hes.plain _ he).2 es rfl
        · cases he

/-- A plain expression beside its negation decides the node. -/
theorem simplifyNode_negated_of_plain (h : s.Normal) (hs : Plain op s)
    (hneg : Plain op (negated s)) : simplifyNode op [s, negated s] = lit op.zero := by
  rw [simplifyNode_eq_zero_iff (by simp [h, h.negated])]
  refine .inr ?_
  simp only [mem_collect_pair hs.1 hneg.1, hs.operandsOf_eq, hneg.operandsOf_eq,
    List.mem_singleton]
  cases s with
  | lit b => exact absurd rfl (hs.1 b)
  | not t => exact ⟨t, .inr rfl, .inl rfl⟩
  | var | nary => exact ⟨_, .inl rfl, .inr rfl⟩

theorem simplifyNode_negated_eq_zero_iff (h : s.Normal) :
    simplifyNode op [s, negated s] = lit op.zero ↔
      ∀ es, s ≠ nary op es ∧ negated s ≠ nary op es := by
  constructor
  · intro hzero es
    constructor
    · rintro rfl
      exact simplifyNode_opened_ne_zero h hzero
    · intro hnode
      cases h with
      | lit | var | nary => simp [negated] at hnode
      | not h _ _ =>
        obtain rfl : _ = nary op es := hnode
        refine simplifyNode_opened_ne_zero h (Eq.trans ?_ hzero)
        exact simplifyNode_congr fun x => by simp [negated, or_comm]
  · intro hnode
    by_cases hlit : ∃ b, s = lit b
    · obtain ⟨b, rfl⟩ := hlit
      rw [simplifyNode_eq_zero_iff (by simp [h, h.negated])]
      refine .inl ?_
      cases b <;> cases op <;> simp [negated, Connective.zero, Connective.unit]
    · have hlit : ∀ b, s ≠ lit b := fun b hb => hlit ⟨b, hb⟩
      exact simplifyNode_negated_of_plain h ⟨hlit, fun es => (hnode es).1⟩
        ⟨negated_ne_lit hlit h, fun es => (hnode es).2⟩

/-! ### The absorption law -/

/-- Joined to `s` by the connective, `g` adds nothing: each operand of `g` has all operands
that some operand of `s` has under the dual connective, and no operand of the two stands
beside its negation. -/
def Superfluous (op : Connective) (s g : Expr) : Prop :=
  hasComplement (operandsOf op s ++ operandsOf op g) = false ∧
    ∀ x ∈ operandsOf op g, ∃ y ∈ operandsOf op s, operandsOf op.dual y ⊆ operandsOf op.dual x

/-- What joins the operands of `s` and of an expression that adds nothing to it loses all but
the operands of `s` by absorption. -/
theorem absorb_collect_of_superfluous (hs : s.Normal) (hg : g.Normal) (hslit : ∀ b, s ≠ lit b)
    (hglit : ∀ b, g ≠ lit b) (h : Superfluous op s g) :
    absorb op (collect op [s, g]) = operandsOf op s := by
  have hred : Reduced op (operandsOf op s) := hs.reduced_operandsOf hslit op
  have hsn : ∀ y ∈ operandsOf op s, y.Normal := fun y hy => hs.of_mem_operandsOf hy
  have hgn : ∀ y ∈ operandsOf op g, y.Normal := fun y hy => hg.of_mem_operandsOf hy
  have hinc : Ordered.Strict cmp (absorb op (collect op [s, g])) := (strict_collect op _).filter _
  refine hinc.eq_of_mem_iff hred.increasing fun x => ?_
  rw [mem_absorb]
  simp only [mem_collect_pair hslit hglit, ← Bool.not_eq_true]
  constructor
  · rintro ⟨hx | hx, hkept⟩
    · exact hx
    · obtain ⟨y, hy, hyx⟩ := h.2 x hx
      have hxy : operandsOf op.dual x ⊆ operandsOf op.dual y := by
        by_contra hnot
        exact hkept y (.inl hy) (((hsn y hy).absorbs_iff (hgn x hx)).2 ⟨hyx, hnot⟩)
      rwa [(hgn x hx).eq_of_operandsOf_subset (hsn y hy) hxy hyx]
  · intro hx
    refine ⟨.inl hx, ?_⟩
    rintro z (hz | hz) habs
    · rw [hred.absorbs_eq_false hsn hz hx] at habs
      cases habs
    · obtain ⟨y, hy, hyz⟩ := h.2 z hz
      obtain ⟨hzx, hxz⟩ := ((hgn z hz).absorbs_iff (hsn x hx)).1 habs
      exact hred.incomparable y hy x hx
        ⟨fun w hw => hzx (hyz hw), fun hxy => hxz fun w hw => hyz (hxy hw)⟩

/-- A node of two simplified operands is the first exactly if the second adds nothing. -/
theorem simplifyNode_pair_eq_left_iff (hs : s.Normal) (hg : g.Normal) (hslit : ∀ b, s ≠ lit b)
    (hglit : ∀ b, g ≠ lit b) : simplifyNode op [s, g] = s ↔ Superfluous op s g := by
  have hn : ∀ e ∈ [s, g], e.Normal := by simp [hs, hg]
  have hcomp : hasComplement (operandsOf op s ++ operandsOf op g) =
      hasComplement (collect op [s, g]) := by
    rw [Bool.eq_iff_iff, hasComplement_eq_true_iff, hasComplement_eq_true_iff]
    simp only [List.mem_append, mem_collect_pair hslit hglit]
  have hzero : lit op.zero ∉ [s, g] := zero_not_mem_pair hslit hglit
  constructor
  · intro heq
    have hnot : hasComplement (collect op [s, g]) = false := by
      rw [Bool.eq_false_iff, ne_eq, hasComplement_eq_true_iff]
      intro hex
      rw [(simplifyNode_eq_zero_iff hn).2 (.inr hex)] at heq
      exact hslit _ heq.symm
    have hjoined : joined op (absorb op (collect op [s, g])) = s :=
      (simplifyNode_eq_joined hzero hnot).symm.trans heq
    have hne : absorb op (collect op [s, g]) ≠ [] := by
      intro hnil
      rw [hnil] at hjoined
      exact hslit _ hjoined.symm
    have hkept : operandsOf op s = absorb op (collect op [s, g]) :=
      (congrArg (operandsOf op) hjoined.symm).trans (operandsOf_joined hne (plain_of_mem_kept hn))
    refine ⟨hcomp.trans hnot, fun x hx => ?_⟩
    rw [hkept]
    exact exists_mem_absorb ((mem_collect_pair hslit hglit).2 (.inr hx))
  · intro h
    have hnot : hasComplement (collect op [s, g]) = false := hcomp ▸ h.1
    have habs := absorb_collect_of_superfluous hs hg hslit hglit h
    rw [simplifyNode_eq_joined hzero hnot, habs, hs.joined_operandsOf]

/-- With an operand that is no constant, a node becomes a constant only by being decided. -/
theorem eq_zero_of_simplifyNode_eq_lit {b : Bool} (hn : ∀ e ∈ es, e.Normal) (hs : s ∈ es)
    (hslit : ∀ b, s ≠ lit b) (heq : simplifyNode op es = lit b) : b = op.zero := by
  by_cases hzero : simplifyNode op es = lit op.zero
  · exact lit.inj (heq.symm.trans hzero)
  · rw [simplifyNode_eq_zero_iff hn, not_or, ← hasComplement_eq_true_iff, Bool.not_eq_true] at hzero
    obtain ⟨x, hx⟩ := List.exists_mem_of_ne_nil _ ((hn s hs).operandsOf_ne_nil op)
    obtain ⟨k, hk, -⟩ := exists_mem_absorb (mem_collect.2 ⟨s, hs, hslit, hx⟩)
    have hplain : ∀ e ∈ absorb op (collect op es), Plain op e := plain_of_mem_kept hn
    have hops := operandsOf_joined (List.ne_nil_of_mem hk) hplain
    rw [← simplifyNode_eq_joined hzero.1 hzero.2, heq] at hops
    rw [← hops] at hplain
    exact absurd rfl ((hplain (lit b) (List.mem_singleton_self _)).1 b)

/-- The neutral constant adds nothing. -/
theorem simplifyNode_unit (hs : s.Normal) (hslit : ∀ b, s ≠ lit b) :
    simplifyNode op [s, lit op.unit] = s := by
  have hred : Reduced op (operandsOf op s) := hs.reduced_operandsOf hslit op
  have hcollect : collect op [s, lit op.unit] = operandsOf op s := by
    refine (strict_collect op _).eq_of_mem_iff hred.increasing fun x => ?_
    simp [mem_collect, hslit]
  have hzero : lit op.zero ∉ [s, lit op.unit] := by
    cases op <;> simp [(hslit _).symm, Connective.zero, Connective.unit]
  rw [hred.simplifyNode_eq (fun _ hx => hs.of_mem_operandsOf hx) hcollect hzero,
    hs.joined_operandsOf]

/-- A constant is found again, whatever is joined to it inside. -/
theorem absorption_of_lit (op : Connective) (b : Bool) (t : Expr) :
    simplifyNode op [lit b, simplifyNode op.dual [lit b, t]] = lit b := by
  by_cases hb : b = op.zero
  · subst hb
    exact simplifyNode_of_zero_mem List.mem_cons_self
  · have hunit : b = op.dual.zero := by
      rw [Connective.zero_dual, ← Connective.ne_zero_iff]
      exact hb
    have hinner : simplifyNode op.dual [lit b, t] = lit b := by
      subst hunit
      exact simplifyNode_of_zero_mem List.mem_cons_self
    rw [hinner]
    cases op <;> cases b <;> rfl

/-- When joining a simplified expression to itself, extended inside, gives it back. -/
theorem absorption_iff (hs : s.Normal) (ht : t.Normal) :
    simplifyNode op [s, simplifyNode op.dual [s, t]] = s ↔
      (∃ b, s = lit b) ∨ (∃ b, simplifyNode op.dual [s, t] = lit b) ∨
        Superfluous op s (simplifyNode op.dual [s, t]) := by
  have hn : ∀ e ∈ [s, t], e.Normal := by simp [hs, ht]
  by_cases hslit : ∃ b, s = lit b
  · obtain ⟨b, rfl⟩ := hslit
    simp [absorption_of_lit]
  · have hslit' : ∀ b, s ≠ lit b := fun b hb => hslit ⟨b, hb⟩
    by_cases hglit : ∃ b, simplifyNode op.dual [s, t] = lit b
    · obtain ⟨b, hb⟩ := hglit
      obtain rfl : b = op.unit := by
        rw [eq_zero_of_simplifyNode_eq_lit hn (by simp) hslit' hb, Connective.zero_dual]
      simp [hb, simplifyNode_unit hs hslit']
    · rw [simplifyNode_pair_eq_left_iff hs (.simplifyNode hn) hslit' fun b hb => hglit ⟨b, hb⟩]
      simp [hslit, hglit]

/-- An expression that is no node of the connective, and of which the inner node loses no
operand, is among the operands of the inner node. -/
theorem operandsOf_subset_inner (hs : s.Normal) (ht : t.Normal) (hslit : ∀ b, s ≠ lit b)
    (hglit : ∀ b, simplifyNode op.dual [s, t] ≠ lit b)
    (hkept : ∀ x ∈ operandsOf op.dual s, ∀ y ∈ operandsOf op.dual t,
      absorbs op.dual y x = false) :
    operandsOf op.dual s ⊆ operandsOf op.dual (simplifyNode op.dual [s, t]) := by
  have hn : ∀ e ∈ [s, t], e.Normal := by simp [hs, ht]
  have hred : Reduced op.dual (operandsOf op.dual s) := hs.reduced_operandsOf hslit _
  have hsn : ∀ y ∈ operandsOf op.dual s, y.Normal := fun y hy => hs.of_mem_operandsOf hy
  have hdecided := mt (simplifyNode_eq_zero_iff hn).2 (hglit _)
  rw [not_or, ← hasComplement_eq_true_iff, Bool.not_eq_true] at hdecided
  have hsub : operandsOf op.dual s ⊆ absorb op.dual (collect op.dual [s, t]) := by
    intro x hx
    refine mem_absorb.2 ⟨mem_collect.2 ⟨s, by simp, hslit, hx⟩, fun y hy => ?_⟩
    obtain ⟨e, he, -, hye⟩ := mem_collect.1 hy
    rcases List.mem_pair.1 he with rfl | rfl
    · exact hred.absorbs_eq_false hsn hye hx
    · exact hkept x hx y hye
  obtain ⟨x, hx⟩ := List.exists_mem_of_ne_nil _ (hs.operandsOf_ne_nil op.dual)
  rw [simplifyNode_eq_joined hdecided.1 hdecided.2,
    operandsOf_joined (List.ne_nil_of_mem (hsub hx)) (plain_of_mem_kept hn)]
  exact hsub

theorem plain_not (op : Connective) (e : Expr) : Plain op (not e) :=
  ⟨by simp, by simp⟩

theorem plain_dual_nary (op : Connective) (es : List Expr) : Plain op.dual (nary op es) := by
  refine ⟨by simp, fun fs heq => ?_⟩
  cases op <;> simp [Connective.dual] at heq

/-- Beside a simplified expression that is no node of the connective, an expression with its
operands and perhaps more adds nothing. -/
theorem superfluous_of_subset (hs : s.Normal) (hg : g.Normal) (hslit : ∀ b, s ≠ lit b)
    (hglit : ∀ b, g ≠ lit b) (hop : ∀ es, s ≠ nary op es)
    (hsub : operandsOf op.dual s ⊆ operandsOf op.dual g) : Superfluous op s g := by
  obtain ⟨x, hx⟩ := List.exists_mem_of_ne_nil _ (hs.operandsOf_ne_nil op.dual)
  have hsplain : Plain op s := ⟨hslit, hop⟩
  have hgplain : Plain op g := by
    refine ⟨hglit, ?_⟩
    rintro ks rfl
    have hops : operandsOf op.dual (nary op ks) = [nary op ks] :=
      (plain_dual_nary op ks).operandsOf_eq
    obtain rfl := List.mem_singleton.1 (hops ▸ hsub hx)
    have hsup : operandsOf op.dual (nary op ks) ⊆ operandsOf op.dual s := by
      rw [hops, List.cons_subset]
      exact ⟨hx, List.nil_subset _⟩
    exact hop ks (hs.eq_of_operandsOf_subset hg hsub hsup)
  rw [Superfluous, hsplain.operandsOf_eq, hgplain.operandsOf_eq]
  constructor
  · rw [Bool.eq_false_iff, ne_eq, hasComplement_eq_true_iff]
    rintro ⟨e, he, hnot⟩
    simp only [List.singleton_append, List.mem_pair] at he hnot
    rcases he with rfl | rfl <;> rcases hnot with hnot | hnot
    · exact ne_not_self _ hnot.symm
    · rw [← hnot, (plain_not op.dual e).operandsOf_eq] at hsub
      obtain rfl := List.mem_singleton.1 (hsub hx)
      exact negation_not_mem_operandsOf op.dual e hx
    · rw [← hnot, (plain_not op.dual e).operandsOf_eq] at hsub
      exact negation_not_mem_operandsOf op.dual e (hsub (List.mem_singleton_self _))
    · exact ne_not_self _ hnot.symm
  · simpa using hsub

/-- The complement law and the absorption law, with the conditions under which simplification
finds them.

An expression beside its negation decides a node exactly if neither simplifies to a node of
the same connective, whose operands would be opened.  An expression is what is left beside a
node of the dual connective that extends it exactly if one of the two is a constant or the
extension adds nothing.  This is so for all expressions that simplify to no node of the
connective, unless an operand of the extension absorbs one of theirs. -/
theorem complement_and_absorption (op : Connective) (e f : Expr) :
    let s := e.simplify
    let g := (nary op.dual [e, f]).simplify
    ((nary op [e, not e]).simplify = lit op.zero ↔
        ∀ es, s ≠ nary op es ∧ (not e).simplify ≠ nary op es) ∧
      ((nary op [e, nary op.dual [e, f]]).simplify = s ↔
        (∃ b, s = lit b) ∨ (∃ b, g = lit b) ∨ Superfluous op s g) ∧
      ((∀ es, s ≠ nary op es) →
        (∀ x ∈ operandsOf op.dual s, ∀ y ∈ operandsOf op.dual f.simplify,
          absorbs op.dual y x = false) →
        (nary op [e, nary op.dual [e, f]]).simplify = s) := by
  intro s g
  have hs : s.Normal := normal_simplify e
  have ht : f.simplify.Normal := normal_simplify f
  have hg : g = simplifyNode op.dual [s, f.simplify] := simplify_nary _ _
  have hnode : (nary op [e, nary op.dual [e, f]]).simplify = simplifyNode op [s, g] :=
    simplify_nary _ _
  have hexact : simplifyNode op [s, g] = s ↔
      (∃ b, s = lit b) ∨ (∃ b, g = lit b) ∨ Superfluous op s g := by
    rw [hg]
    exact absorption_iff hs ht
  refine ⟨?_, hnode ▸ hexact, fun hop hkept => ?_⟩
  · rw [simplify_nary, List.map_cons, List.map_singleton, simplify_not]
    exact simplifyNode_negated_eq_zero_iff hs
  · rw [hnode, hexact]
    by_cases hslit : ∃ b, s = lit b
    · exact .inl hslit
    · by_cases hglit : ∃ b, g = lit b
      · exact .inr (.inl hglit)
      · have hslit : ∀ b, s ≠ lit b := fun b hb => hslit ⟨b, hb⟩
        have hglit : ∀ b, g ≠ lit b := fun b hb => hglit ⟨b, hb⟩
        have hsub : operandsOf op.dual s ⊆ operandsOf op.dual g := by
          rw [hg] at hglit ⊢
          exact operandsOf_subset_inner hs ht hslit hglit hkept
        exact .inr (.inr (superfluous_of_subset hs (normal_simplify _) hslit hglit hop hsub))

/-- A disjunction absorbs a wider one. -/
theorem wider_disjunction_absorbed :
    let e := nary .or [var "x", var "y"]
    (∀ es, e.simplify ≠ nary .and es) ∧
      (∀ x ∈ operandsOf .or e.simplify, ∀ y ∈ operandsOf .or (var "z").simplify,
        absorbs .or y x = false) ∧
      (nary .and [e, nary .or [e, var "z"]]).simplify = e.simplify := by
  intro e
  have he : e.simplify = e := by decide
  have hop : ∀ es, e.simplify ≠ nary .and es := by simp [he, e]
  have hkept : ∀ x ∈ operandsOf .or e.simplify, ∀ y ∈ operandsOf .or (var "z").simplify,
      absorbs .or y x = false := by
    rw [he, simplify_var]
    decide
  exact ⟨hop, hkept, (complement_and_absorption .and e (var "z")).2.2 hop hkept⟩

/-- The operands of a conjunction are opened within a conjunction.  There it neither meets its
negation nor absorbs a disjunction that extends it. -/
theorem opened_conjunction_escapes_laws :
    let e := nary .and [var "a", var "b"]
    (nary .and [e, not e]).simplify = nary .and [var "a", var "b", not e] ∧
      (nary .and [e, not e]).simplify ≠ lit false ∧
      (nary .and [e, nary .or [e, var "c"]]).simplify =
        nary .and [var "a", var "b", nary .or [var "c", e]] ∧
      (nary .and [e, nary .or [e, var "c"]]).simplify ≠ e.simplify := by
  decide

end Moore.Expr
