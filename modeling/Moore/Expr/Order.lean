import Moore.Expr.Basic

/-
# The order of expressions

Constants come before variables, then negations, conjunctions and disjunctions; within
one kind the contents are compared, lists of operands lexicographically.  `compare`
answers equal for equal expressions only, so equality is decidable.
-/

namespace Moore.Expr

/-- The place of the outermost operator in the order of kinds. -/
def kind : Expr → Nat
  | .lit _ => 0
  | .var _ => 1
  | .not _ => 2
  | .nary .and _ => 3
  | .nary .or _ => 4

mutual

/-- Compares two expressions, kind first. -/
def cmp : Expr → Expr → Ordering
  | .lit a, .lit b => compare a b
  | .var x, .var y => compare x y
  | .not e, .not f => cmp e f
  | .nary .and es, .nary .and fs => cmpAll es fs
  | .nary .or es, .nary .or fs => cmpAll es fs
  | e, f => compare e.kind f.kind

/-- Compares two lists of operands lexicographically. -/
def cmpAll : List Expr → List Expr → Ordering
  | [], [] => .eq
  | [], _ :: _ => .lt
  | _ :: _, [] => .gt
  | e :: es, f :: fs => (cmp e f).then (cmpAll es fs)

end

mutual

@[simp] theorem cmp_self : ∀ e : Expr, cmp e e = .eq
  | .lit b => by simp [cmp]
  | .var x => by simp [cmp]
  | .not e => by simp [cmp, cmp_self e]
  | .nary .and es => by simp [cmp, cmpAll_self es]
  | .nary .or es => by simp [cmp, cmpAll_self es]

@[simp] theorem cmpAll_self : ∀ es : List Expr, cmpAll es es = .eq
  | [] => by simp [cmpAll]
  | e :: es => by simp [cmpAll, cmp_self e, cmpAll_self es]

end

mutual

theorem eq_of_cmp_eq : ∀ {e f : Expr}, cmp e f = .eq → e = f
  | .lit a, .lit b, h => by simpa [cmp] using h
  | .var x, .var y, h => by simpa [cmp] using h
  | .not e, .not f, h => by simp [@eq_of_cmp_eq e f (by simpa [cmp] using h)]
  | .nary .and es, .nary .and fs, h => by
    simp [@eq_of_cmpAll_eq es fs (by simpa [cmp] using h)]
  | .nary .or es, .nary .or fs, h => by
    simp [@eq_of_cmpAll_eq es fs (by simpa [cmp] using h)]
  | .lit _, .var _, h | .lit _, .not _, h | .lit _, .nary .and _, h | .lit _, .nary .or _, h
  | .var _, .lit _, h | .var _, .not _, h | .var _, .nary .and _, h | .var _, .nary .or _, h
  | .not _, .lit _, h | .not _, .var _, h | .not _, .nary .and _, h | .not _, .nary .or _, h
  | .nary .and _, .lit _, h | .nary .and _, .var _, h | .nary .and _, .not _, h
  | .nary .and _, .nary .or _, h
  | .nary .or _, .lit _, h | .nary .or _, .var _, h | .nary .or _, .not _, h
  | .nary .or _, .nary .and _, h => by simp [cmp, kind] at h

theorem eq_of_cmpAll_eq : ∀ {es fs : List Expr}, cmpAll es fs = .eq → es = fs
  | [], [], _ => rfl
  | [], _ :: _, h => by simp [cmpAll] at h
  | _ :: _, [], h => by simp [cmpAll] at h
  | e :: es, f :: fs, h => by
    simp only [cmpAll, Ordering.then_eq_eq] at h
    rw [eq_of_cmp_eq h.1, eq_of_cmpAll_eq h.2]

end

instance : Std.LawfulEqCmp cmp where
  compare_self := cmp_self _
  eq_of_compare := eq_of_cmp_eq

instance : DecidableEq Expr := fun e f =>
  decidable_of_iff (cmp e f = .eq) ⟨eq_of_cmp_eq, fun h => h ▸ cmp_self e⟩

end Moore.Expr
