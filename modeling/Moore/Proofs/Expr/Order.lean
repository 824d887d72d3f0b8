import Moore.Expr.Order

/-
# Expressions are totally ordered

Expressions of different kinds compare as their kinds do (`cmp_of_kind_ne`), and within one
kind as their contents do.  So the comparison inherits its laws from names and constants:
exchanging the expressions turns the answer around (`cmp_swap`), and it is transitive
(`transAbove`).  The laws for lists of operands assume those of the operands and carry
the induction over nodes.
-/

namespace Moore.Expr

variable {e f g : Expr} {es fs gs : List Expr} {op : Connective}

/-! ### Kinds -/

theorem eq_lit_of_kind {b : Bool} (h : f.kind = (lit b).kind) : ∃ c, f = lit c := by
  cases f with
  | lit c => exact ⟨c, rfl⟩
  | var | not => simp [kind] at h
  | nary op => cases op <;> simp [kind] at h

theorem eq_var_of_kind {x : String} (h : f.kind = (var x).kind) : ∃ y, f = var y := by
  cases f with
  | var y => exact ⟨y, rfl⟩
  | lit | not => simp [kind] at h
  | nary op => cases op <;> simp [kind] at h

theorem eq_not_of_kind (h : f.kind = (not e).kind) : ∃ e', f = not e' := by
  cases f with
  | not e' => exact ⟨e', rfl⟩
  | lit | var => simp [kind] at h
  | nary op => cases op <;> simp [kind] at h

theorem eq_nary_of_kind (h : f.kind = (nary op es).kind) : ∃ fs, f = nary op fs := by
  cases f with
  | lit | var | not => cases op <;> simp [kind] at h
  | nary op' fs =>
    cases op <;> cases op' <;> simp [kind] at h ⊢

theorem cmp_of_kind_ne (h : e.kind ≠ f.kind) : cmp e f = compare e.kind f.kind := by
  unfold cmp
  split <;> first | rfl | exact absurd rfl h

@[simp] theorem cmp_nary (op : Connective) (es fs : List Expr) :
    cmp (nary op es) (nary op fs) = cmpAll es fs := by
  cases op <;> simp [cmp]

theorem kind_le_of_isLE (h : (cmp e f).isLE = true) : e.kind ≤ f.kind := by
  by_cases hk : e.kind = f.kind
  · exact Nat.le_of_eq hk
  · rw [cmp_of_kind_ne hk] at h
    exact Nat.isLE_compare.1 h

/-! ### Exchange -/

theorem cmpAll_swap (h : ∀ e ∈ es, ∀ f, cmp e f = (cmp f e).swap) (fs : List Expr) :
    cmpAll es fs = (cmpAll fs es).swap := by
  induction es generalizing fs with
  | nil => cases fs <;> rfl
  | cons e es ih =>
    obtain ⟨he, hes⟩ := List.forall_mem_cons.1 h
    cases fs with
    | nil => rfl
    | cons f fs => rw [cmpAll, cmpAll, Ordering.swap_then, ← he f, ← ih hes fs]

theorem cmp_swap_of_kind_ne (h : f.kind ≠ e.kind) : cmp e f = (cmp f e).swap := by
  rw [cmp_of_kind_ne h, cmp_of_kind_ne (Ne.symm h)]
  exact Std.OrientedOrd.eq_swap

theorem cmp_swap (e f : Expr) : cmp e f = (cmp f e).swap := by
  induction e generalizing f with
  | lit b =>
    by_cases hk : f.kind = (lit b).kind
    · obtain ⟨c, rfl⟩ := eq_lit_of_kind hk
      simpa only [cmp] using Std.OrientedOrd.eq_swap
    · exact cmp_swap_of_kind_ne hk
  | var x =>
    by_cases hk : f.kind = (var x).kind
    · obtain ⟨y, rfl⟩ := eq_var_of_kind hk
      simpa only [cmp] using Std.OrientedOrd.eq_swap
    · exact cmp_swap_of_kind_ne hk
  | not e ih =>
    by_cases hk : f.kind = (not e).kind
    · obtain ⟨e', rfl⟩ := eq_not_of_kind hk
      simpa only [cmp] using ih e'
    · exact cmp_swap_of_kind_ne hk
  | nary op es ih =>
    by_cases hk : f.kind = (nary op es).kind
    · obtain ⟨fs, rfl⟩ := eq_nary_of_kind hk
      rw [cmp_nary, cmp_nary, cmpAll_swap ih]
    · exact cmp_swap_of_kind_ne hk

instance : Std.OrientedCmp cmp where
  eq_swap := cmp_swap _ _

/-! ### Transitivity -/

/-- What lies above an expression of a higher kind lies above the expression. -/
theorem isLE_cmp_of_kind_lt (h : e.kind < g.kind) : (cmp e g).isLE = true := by
  rw [cmp_of_kind_ne (Nat.ne_of_lt h), Nat.isLE_compare]
  exact Nat.le_of_lt h

/-- Transitivity for the expressions above `e`, as the induction over operands needs it. -/
def TransAbove (e : Expr) : Prop :=
  ∀ f g, (cmp e f).isLE = true → (cmp f g).isLE = true → (cmp e g).isLE = true

theorem TransAbove.lt_trans (h : e.TransAbove) (hef : cmp e f = .lt) (hfg : cmp f g = .lt) :
    cmp e g = .lt := by
  have hle : (cmp e g).isLE = true := h f g (by simp [hef]) (by simp [hfg])
  refine (Ordering.isLE_iff_eq_lt_or_eq_eq.1 hle).resolve_right fun heq => ?_
  obtain rfl := eq_of_cmp_eq heq
  rw [cmp_swap, hfg] at hef
  cases hef

theorem isLE_cmpAll_trans (h : ∀ e ∈ es, e.TransAbove) (hef : (cmpAll es fs).isLE = true)
    (hfg : (cmpAll fs gs).isLE = true) : (cmpAll es gs).isLE = true := by
  induction es generalizing fs gs with
  | nil => cases gs <;> rfl
  | cons e es ih =>
    obtain ⟨he, hes⟩ := List.forall_mem_cons.1 h
    cases fs with
    | nil => cases hef
    | cons f fs =>
      cases gs with
      | nil => cases hfg
      | cons g gs =>
        rw [cmpAll, Ordering.isLE_then_iff_or] at hef hfg ⊢
        rcases hef with hef | ⟨hef, hefs⟩
        · rcases hfg with hfg | ⟨hfg, -⟩
          · exact .inl (he.lt_trans hef hfg)
          · obtain rfl := eq_of_cmp_eq hfg
            exact .inl hef
        · obtain rfl := eq_of_cmp_eq hef
          rcases hfg with hfg | ⟨hfg, hfgs⟩
          · exact .inl hfg
          · exact .inr ⟨hfg, ih hes hefs hfgs⟩

/-- Only expressions of one kind are left to compare. -/
theorem TransAbove.of_kind (h : ∀ f g, f.kind = e.kind → g.kind = e.kind →
    (cmp e f).isLE = true → (cmp f g).isLE = true → (cmp e g).isLE = true) : e.TransAbove := by
  intro f g hef hfg
  have hkef := kind_le_of_isLE hef
  have hkfg := kind_le_of_isLE hfg
  by_cases hk : e.kind < g.kind
  · exact isLE_cmp_of_kind_lt hk
  · exact h f g (by omega) (by omega) hef hfg

theorem transAbove (e : Expr) : e.TransAbove := by
  induction e with
  | lit b =>
    refine .of_kind fun f g hf hg hef hfg => ?_
    obtain ⟨c, rfl⟩ := eq_lit_of_kind hf
    obtain ⟨d, rfl⟩ := eq_lit_of_kind hg
    simp only [cmp] at hef hfg ⊢
    exact Std.TransOrd.isLE_trans hef hfg
  | var x =>
    refine .of_kind fun f g hf hg hef hfg => ?_
    obtain ⟨y, rfl⟩ := eq_var_of_kind hf
    obtain ⟨z, rfl⟩ := eq_var_of_kind hg
    simp only [cmp] at hef hfg ⊢
    exact Std.TransOrd.isLE_trans hef hfg
  | not e ih =>
    refine .of_kind fun f g hf hg hef hfg => ?_
    obtain ⟨f, rfl⟩ := eq_not_of_kind hf
    obtain ⟨g, rfl⟩ := eq_not_of_kind hg
    simp only [cmp] at hef hfg ⊢
    exact ih f g hef hfg
  | nary op es ih =>
    refine .of_kind fun f g hf hg hef hfg => ?_
    obtain ⟨fs, rfl⟩ := eq_nary_of_kind hf
    obtain ⟨gs, rfl⟩ := eq_nary_of_kind hg
    rw [cmp_nary] at hef hfg ⊢
    exact isLE_cmpAll_trans ih hef hfg

instance : Std.TransCmp cmp where
  isLE_trans := transAbove _ _ _

end Moore.Expr
