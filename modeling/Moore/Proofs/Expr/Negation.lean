import Moore.Expr.NormalForm
import Moore.Proofs.Expr.Truth

/-
# Negation normal form

Pushing negations down carries a polarity through the expression.  Everything is stated for
both polarities at once, by induction over the expression, and the polarity of `nnf` is one
of them.

* Only inputs stay negated (`pushed_nnfWith`), and nothing is left to push down after that
  (`Pushed.nnf_eq`).
* The other polarity gives the dual (`nnfWith_not`), so the value is negated with it
  (`eval_nnfWith`).
* The nodes of connectives stay where they are (`nodeAt_nnfWith`): each keeps its operands
  and becomes its dual under an odd number of negations.
-/

namespace Moore

namespace Connective

/-- The connective that a connective becomes when `negations` are pushed through it. -/
def under (negations : Nat) (op : Connective) : Connective :=
  if negations % 2 = 1 then op.dual else op

/-- Only whether the number of negations is odd matters. -/
theorem under_not_add (op : Connective) (neg : Bool) (k : Nat) :
    op.under (k + (!neg).toNat) = op.under (k + 1 + neg.toNat) := by
  cases neg with
  | false => rfl
  | true =>
    have hparity : (k + 1 + 1) % 2 = k % 2 := by omega
    simp [under, hparity]

theorem under_toNat (op : Connective) (neg : Bool) :
    op.under neg.toNat = if neg then op.dual else op := by
  cases neg <;> rfl

end Connective

namespace Expr

variable {σ : String → Bool} {neg : Bool} {e : Expr} {op : Connective} {p : List Nat} {k n : Nat}

/-- Negations stand directly above inputs only. -/
inductive Pushed : Expr → Prop where
  | lit (b : Bool) : Pushed (lit b)
  | var (x : String) : Pushed (var x)
  | not (x : String) : Pushed (not (var x))
  | nary {op : Connective} {es : List Expr} : (∀ e ∈ es, Pushed e) → Pushed (nary op es)

mutual

/-- The dual of an expression with negations above inputs only: the connectives are
exchanged, and every constant, input and negated input is negated. -/
def dual : Expr → Expr
  | .lit b => .lit !b
  | .var x => .not (.var x)
  | .not e => e
  | .nary op es => .nary op.dual (dualAll es)

def dualAll : List Expr → List Expr
  | [] => []
  | e :: es => e.dual :: dualAll es

end

/-- Following the operands with these indices leads to a node of the connective with `n`
operands, through `k` negations in all. -/
inductive NodeAt : Expr → List Nat → (k : Nat) → Connective → (n : Nat) → Prop where
  | here (op : Connective) (es : List Expr) : NodeAt (nary op es) [] 0 op es.length
  | not {e : Expr} {p : List Nat} {k : Nat} {op : Connective} {n : Nat} :
      NodeAt e p k op n → NodeAt (not e) p (k + 1) op n
  | operand {op' : Connective} {es : List Expr} {i : Nat} {e : Expr} {p : List Nat} {k : Nat}
      {op : Connective} {n : Nat} :
      es[i]? = some e → NodeAt e p k op n → NodeAt (nary op' es) (i :: p) k op n

attribute [local simp] nnfWith

theorem dualAll_eq (es : List Expr) : dualAll es = es.map dual := by
  induction es with
  | nil => rfl
  | cons e es ih => rw [dualAll, ih, List.map_cons]

/-! ### Shape -/

theorem pushed_nnfWith (neg : Bool) (e : Expr) : (nnfWith neg e).Pushed := by
  induction e generalizing neg with
  | lit b => exact .lit _
  | var x =>
    cases neg with
    | false => exact .var x
    | true => exact .not x
  | not e ih => exact ih !neg
  | nary op es ih =>
    rw [nnfWith, nnfAll_eq]
    refine .nary (List.forall_mem_map.2 fun e he => ?_)
    exact ih e he neg

theorem Pushed.nnf_eq (h : e.Pushed) : e.nnf = e := by
  rw [nnf]
  induction h with
  | lit b => simp
  | var x => rfl
  | not x => rfl
  | @nary op es _ ih =>
    rw [nnfWith, nnfAll_eq, List.map_congr_left ih, List.map_id']
    rfl

/-- Pushing down one negation more gives the dual. -/
theorem nnfWith_not (neg : Bool) (e : Expr) : nnfWith (!neg) e = (nnfWith neg e).dual := by
  induction e generalizing neg with
  | lit b =>
    rw [nnfWith, nnfWith, dual]
    cases b <;> cases neg <;> rfl
  | var x => cases neg <;> rfl
  | not e ih => exact ih !neg
  | nary op es ih =>
    have hes : nnfAll (!neg) es = dualAll (nnfAll neg es) := by
      rw [nnfAll_eq, nnfAll_eq, dualAll_eq, List.map_map]
      exact List.map_congr_left fun e he => ih e he neg
    rw [nnfWith, nnfWith, dual, hes]
    cases neg <;> simp

/-! ### Inputs and truth -/

theorem occurrences_nnfWith (neg : Bool) (e : Expr) :
    (nnfWith neg e).occurrences = e.occurrences := by
  induction e generalizing neg with
  | lit b => rfl
  | var x => cases neg <;> rfl
  | not e ih => exact ih !neg
  | nary op es ih =>
    rw [nnfWith, occurrences, occurrences, nnfAll_eq, occurrencesAll_eq, occurrencesAll_eq,
      List.flatMap_map, List.flatMap_def, List.flatMap_def]
    congr 1
    exact List.map_congr_left fun e he => ih e he neg

/-- The dual node over negated operands has the other value. -/
theorem eval_nary_dual_map {f : Expr → Expr} {es : List Expr}
    (h : ∀ e ∈ es, (f e).eval σ = !e.eval σ) :
    (nary op.dual (es.map f)).eval σ = !(nary op es).eval σ := by
  have hneg : ∀ b : Bool, (!b) = op.unit ↔ b = op.zero := fun b => by
    rw [← op.not_zero, Bool.not_inj_iff]
  apply op.dual.eq_of_eq_zero_iff
  rw [Connective.zero_dual, hneg, eval_nary_eq_zero_iff, ← Connective.zero_dual,
    eval_nary_eq_zero_iff, Connective.zero_dual]
  constructor
  · rintro ⟨_, hf, hunit⟩
    obtain ⟨e, he, rfl⟩ := List.mem_map.1 hf
    exact ⟨e, he, (hneg _).1 ((h e he).symm.trans hunit)⟩
  · rintro ⟨e, he, hzero⟩
    exact ⟨f e, List.mem_map_of_mem he, (h e he).trans ((hneg _).2 hzero)⟩

/-- The value is that of the expression or of its negation. -/
theorem eval_nnfWith (neg : Bool) (e : Expr) :
    (nnfWith neg e).eval σ = (e.eval σ != neg) := by
  induction e generalizing neg with
  | lit b => simp
  | var x => cases neg <;> simp
  | not e ih =>
    rw [nnfWith, ih, eval_not]
    cases e.eval σ <;> cases neg <;> rfl
  | nary op es ih =>
    rw [nnfWith, nnfAll_eq]
    cases neg with
    | false =>
      rw [Bool.bne_false]
      exact eval_nary_map fun e he => (ih e he false).trans (Bool.bne_false _)
    | true =>
      rw [Bool.bne_true]
      exact eval_nary_dual_map fun e he => (ih e he true).trans (Bool.bne_true _)

/-! ### Nodes -/

/-- The nodes are those of the expression, in the same places and with as many operands. -/
theorem nodeAt_nnfWith : NodeAt (nnfWith neg e) p k op n ↔
    k = 0 ∧ ∃ j op', NodeAt e p j op' n ∧ op = op'.under (j + neg.toNat) := by
  induction e generalizing neg p with
  | lit b =>
    rw [nnfWith]
    constructor
    · rintro ⟨⟩
    · rintro ⟨-, _, _, ⟨⟩, -⟩
  | var x =>
    constructor
    · cases neg with
      | false => rintro ⟨⟩
      | true => rintro (_ | ⟨⟨⟩⟩)
    · rintro ⟨-, _, _, ⟨⟩, -⟩
  | not e ih =>
    rw [nnfWith, ih]
    refine and_congr_right fun _ => ?_
    constructor
    · rintro ⟨j, op', h, rfl⟩
      exact ⟨j + 1, op', .not h, op'.under_not_add neg j⟩
    · rintro ⟨_, op', ⟨⟩ | h, rfl⟩
      exact ⟨_, op', h, (op'.under_not_add neg _).symm⟩
  | nary op' es ih =>
    rw [nnfWith, nnfAll_eq]
    constructor
    · intro h
      cases h with
      | here =>
        rw [List.length_map]
        exact ⟨rfl, 0, op', .here op' es, by rw [Nat.zero_add, Connective.under_toNat]⟩
      | operand hi h =>
        rw [List.getElem?_map, Option.map_eq_some_iff] at hi
        obtain ⟨e, hi, rfl⟩ := hi
        obtain ⟨rfl, j, op₀, h₀, rfl⟩ := (ih e (List.mem_of_getElem? hi)).1 h
        exact ⟨rfl, j, op₀, .operand hi h₀, rfl⟩
    · rintro ⟨rfl, j, op₀, h, rfl⟩
      cases h with
      | here =>
        rw [Nat.zero_add, Connective.under_toNat, ← List.length_map (nnfWith neg)]
        exact .here _ _
      | @operand _ _ i e _ _ _ _ hi h =>
        have hi' : (es.map (nnfWith neg))[i]? = some (nnfWith neg e) := by
          rw [List.getElem?_map, hi, Option.map_some]
        exact .operand hi' ((ih e (List.mem_of_getElem? hi)).2 ⟨rfl, j, op₀, h, rfl⟩)

/-- Negation normal form pushes the negations down and changes nothing else.  Only inputs stay
negated; the value under every assignment and the inputs are those of the expression; every
node keeps its place and its number of operands, and its connective is exchanged exactly if
an odd number of negations stood above it.  The form of the form is the form itself, and that
of the negation is its dual. -/
theorem nnf_pushes_negations (e : Expr) :
    e.nnf.Pushed ∧ (∀ σ, e.nnf.eval σ = e.eval σ) ∧ e.nnf.inputs = e.inputs ∧
      (∀ p k op n, NodeAt e.nnf p k op n ↔
        k = 0 ∧ ∃ j op', NodeAt e p j op' n ∧ op = op'.under j) ∧
      e.nnf.nnf = e.nnf ∧ (not e).nnf = e.nnf.dual := by
  refine ⟨pushed_nnfWith false e, fun σ => ?_, ?_, fun p k op n => ?_, ?_, ?_⟩
  · rw [nnf, eval_nnfWith, Bool.bne_false]
  · rw [inputs, inputs, nnf, occurrences_nnfWith]
  · exact nodeAt_nnfWith
  · exact (pushed_nnfWith false e).nnf_eq
  · exact nnfWith_not false e

/-- Two negations stand above the disjunction, which stays one. -/
example :
    (not (nary .and [var "a", not (nary .or [var "b", lit true])])).nnf =
      nary .or [not (var "a"), nary .or [var "b", lit true]] := by
  decide

end Expr

end Moore
