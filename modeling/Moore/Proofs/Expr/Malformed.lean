import Moore.Error
import Moore.Proofs.Expr.Lowering
import Moore.Proofs.Expr.Negation

/-
# Where lowering fails

Lowering is in the way of nothing but a node with fewer than two operands.  It looks at a node
before its operands and at these from left to right, and stops at the first fault.  `NodeAt`
places a node by the indices of the operands that lead to it, and in the lexicographic order of
these paths a path comes before all that go on from it.  So the node that is reported is the one
with the least path (`lower_eq_error_iff`).

That no node is missed is the induction of `lowerAll_eq_error`: the operands in front of a failing
one were lowered, so there is no fault in them (`proper_iff_not_malformedAt`).
-/

namespace Moore

namespace Expr

variable {e f : Expr} {op op' : Connective} {es before after : List Expr} {p q : List Nat}
  {k k' n n' context : Nat} {err : ExprError}

/-- A node at the path has fewer than two operands. -/
def MalformedAt (e : Expr) (p : List Nat) (op : Connective) (n : Nat) : Prop :=
  n < 2 ∧ ∃ k, NodeAt e p k op n

/-- Of the nodes with fewer than two operands, the one at the path comes first. -/
structure FirstMalformed (e : Expr) (p : List Nat) (op : Connective) (n : Nat) : Prop where
  malformed : MalformedAt e p op n
  least : ∀ q op' n', MalformedAt e q op' n' → p = q ∨ List.Lex (· < ·) p q

/-! ### Nodes and paths -/

/-- A path leads to one node. -/
theorem NodeAt.unique (h : NodeAt e p k op n) (h' : NodeAt e p k' op' n') : op = op' ∧ n = n' := by
  induction h generalizing k' with
  | here => cases h'; exact ⟨rfl, rfl⟩
  | not _ ih =>
    cases h' with
    | not h' => exact ih h'
  | operand hi _ ih =>
    cases h' with
    | operand hi' h' =>
      obtain rfl : _ = _ := Option.some.inj (hi.symm.trans hi')
      exact ih h'

theorem malformedAt_not_iff : MalformedAt (not e) p op n ↔ MalformedAt e p op n := by
  refine and_congr_right fun _ => ?_
  constructor
  · rintro ⟨_, h⟩
    cases h with
    | not h => exact ⟨_, h⟩
  · rintro ⟨k, h⟩
    exact ⟨k + 1, h.not⟩

/-- A node with fewer than two operands is the node itself or lies in one of its operands. -/
theorem malformedAt_nary_iff : MalformedAt (nary op' es) p op n ↔
    (p = [] ∧ op = op' ∧ n = es.length ∧ es.length < 2) ∨
      ∃ i e q, p = i :: q ∧ es[i]? = some e ∧ MalformedAt e q op n := by
  constructor
  · rintro ⟨hn, k, h⟩
    cases h with
    | here => exact .inl ⟨rfl, rfl, rfl, hn⟩
    | operand hi h => exact .inr ⟨_, _, _, rfl, hi, hn, k, h⟩
  · rintro (⟨rfl, rfl, rfl, hn⟩ | ⟨i, e, q, rfl, hi, hn, k, h⟩)
    · exact ⟨hn, 0, .here op es⟩
    · exact ⟨hn, k, .operand hi h⟩

/-- The proper expressions are those in which no path leads to such a node. -/
theorem proper_iff_not_malformedAt : e.Proper ↔ ∀ p op n, ¬MalformedAt e p op n := by
  induction e with
  | lit b => exact iff_of_true (.lit b) fun p op n => by rintro ⟨-, _, ⟨⟩⟩
  | var x => exact iff_of_true (.var x) fun p op n => by rintro ⟨-, _, ⟨⟩⟩
  | not e ih => simp only [proper_not_iff, malformedAt_not_iff, ih]
  | nary op es ih =>
    rw [proper_nary_iff]
    constructor
    · rintro ⟨hlen, hes⟩ p op' n h
      rcases malformedAt_nary_iff.1 h with ⟨-, -, -, hlt⟩ | ⟨i, e, q, -, hi, h⟩
      · omega
      · have he : e ∈ es := List.mem_of_getElem? hi
        exact (ih e he).1 (hes e he) q op' n h
    · intro h
      constructor
      · by_contra hlt
        exact h [] op es.length
          (malformedAt_nary_iff.2 (.inl ⟨rfl, rfl, rfl, Nat.lt_of_not_le hlt⟩))
      · intro e he
        refine (ih e he).2 fun q op' n hq => ?_
        obtain ⟨i, hi⟩ := List.mem_iff_getElem?.1 he
        exact h (i :: q) op' n (malformedAt_nary_iff.2 (.inr ⟨i, e, q, rfl, hi, hq⟩))

theorem not_proper_iff : ¬e.Proper ↔ ∃ p op n, MalformedAt e p op n := by
  rw [proper_iff_not_malformedAt]
  push Not
  rfl

/-! ### The first node -/

namespace FirstMalformed

theorem unique (h : FirstMalformed e p op n) (h' : FirstMalformed e q op' n') :
    op = op' ∧ n = n' := by
  obtain rfl : p = q := by
    rcases h.least q op' n' h'.malformed with heq | hlt
    · exact heq
    · rcases h'.least p op n h.malformed with heq | hgt
      · exact heq.symm
      · exact absurd hgt (List.lex_asymm Nat.lt_asymm hlt)
  obtain ⟨-, k, hk⟩ := h.malformed
  obtain ⟨-, k', hk'⟩ := h'.malformed
  exact hk.unique hk'

theorem not (h : FirstMalformed e p op n) : FirstMalformed (not e) p op n where
  malformed := malformedAt_not_iff.2 h.malformed
  least q op' n' hq := h.least q op' n' (malformedAt_not_iff.1 hq)

/-- A node comes before its operands. -/
theorem here (h : es.length < 2) : FirstMalformed (nary op es) [] op es.length where
  malformed := malformedAt_nary_iff.2 (.inl ⟨rfl, rfl, rfl, h⟩)
  least q _ _ _ := by
    cases q with
    | nil => exact .inl rfl
    | cons i q => exact .inr .nil

/-- Operands come from left to right. -/
theorem operand (hlen : 2 ≤ (before ++ e :: after).length) (hbefore : ∀ f ∈ before, f.Proper)
    (h : FirstMalformed e p op n) :
    FirstMalformed (nary op' (before ++ e :: after)) (before.length :: p) op n where
  malformed := malformedAt_nary_iff.2 (.inr ⟨_, e, p, rfl, by simp, h.malformed⟩)
  least q op₁ n₁ hq := by
    rcases malformedAt_nary_iff.1 hq with ⟨-, -, -, hlt⟩ | ⟨i, f, q, rfl, hi, hq⟩
    · omega
    rcases Nat.lt_trichotomy before.length i with hlt | rfl | hlt
    · exact .inr (.rel hlt)
    · obtain rfl : e = f := by simpa using hi
      exact (h.least q op₁ n₁ hq).imp (congrArg _) .cons
    · -- The operands in front are proper, so they hold no such node.
      rw [List.getElem?_append_left hlt] at hi
      have hf : f.Proper := hbefore f (List.mem_of_getElem? hi)
      exact absurd hq (proper_iff_not_malformedAt.1 hf q op₁ n₁)

end FirstMalformed

/-! ### Lowering -/

/-- Operands are lowered from left to right, up to one that fails. -/
theorem lowerAll_eq_error (h : lowerAll op es = .error err) : ∃ before e after,
    es = before ++ e :: after ∧ (∀ f ∈ before, f.Proper) ∧ e.lower op.precedence = .error err := by
  induction es with
  | nil => cases h
  | cons e es ih =>
    cases es with
    | nil => exact ⟨[], e, [], rfl, List.forall_mem_nil _, by rwa [lowerAll] at h⟩
    | cons f es =>
      simp only [lowerAll, bind_eq_error_iff] at h
      rcases h with h | ⟨t, ht, h | ⟨_, _, h⟩⟩
      · exact ⟨[], e, f :: es, rfl, List.forall_mem_nil _, h⟩
      · obtain ⟨before, g, after, heq, hbefore, hg⟩ := ih h
        refine ⟨e :: before, g, after, by rw [heq, List.cons_append], ?_, hg⟩
        exact List.forall_mem_cons.2 ⟨proper_of_lower ht, hbefore⟩
      · cases h

/-- What is reported is the first node with fewer than two operands. -/
theorem exists_firstMalformed (h : e.lower context = .error err) :
    ∃ p op n, FirstMalformed e p op n ∧ err = .malformedNode op n := by
  induction e generalizing context with
  | lit b => cases b <;> cases h
  | var x => cases h
  | not e ih =>
    by_cases hvar : ∃ x, e = var x
    · obtain ⟨x, rfl⟩ := hvar
      cases h
    · rw [lower_not fun x hx => hvar ⟨x, hx⟩, map_eq_error_iff] at h
      obtain ⟨p, op, n, hfirst, rfl⟩ := ih h
      exact ⟨p, op, n, hfirst.not, rfl⟩
  | nary op es ih =>
    rw [lower] at h
    split at h
    · next hlt =>
      cases h
      exact ⟨[], op, es.length, .here hlt, rfl⟩
    · next hlen =>
      obtain ⟨before, e, after, rfl, hbefore, he⟩ := lowerAll_eq_error (map_eq_error_iff.1 h)
      obtain ⟨p, op', n, hfirst, rfl⟩ := ih e (by simp) he
      exact ⟨_, op', n, hfirst.operand (Nat.le_of_not_lt hlen) hbefore, rfl⟩

theorem exists_lower_eq_error_iff :
    (∃ err, e.lower context = .error err) ↔ ∃ p op n, MalformedAt e p op n := by
  rw [← not_proper_iff]
  constructor
  · rintro ⟨err, herr⟩ hp
    obtain ⟨t, ht⟩ := exists_lower_of_proper hp context
    rw [herr] at ht
    cases ht
  · intro hp
    cases h : e.lower context with
    | error err => exact ⟨err, rfl⟩
    | ok t => exact absurd (proper_of_lower h) hp

theorem lower_eq_error_iff : e.lower context = .error err ↔
    ∃ p op n, FirstMalformed e p op n ∧ err = .malformedNode op n := by
  constructor
  · exact exists_firstMalformed
  · rintro ⟨p, op, n, hfirst, rfl⟩
    obtain ⟨err, herr⟩ := exists_lower_eq_error_iff.2 ⟨p, op, n, hfirst.malformed⟩
    obtain ⟨p', op', n', hfirst', rfl⟩ := exists_firstMalformed herr
    obtain ⟨rfl, rfl⟩ := hfirst.unique hfirst'
    exact herr

theorem relational_eq_error_iff : e.relational = .error err ↔ e.lower 0 = .error err :=
  map_eq_error_iff

/-- An expression has no relational text exactly if a node in it has fewer than two operands,
wherever it is.  The error is about the first such node, a node before its operands and these
from left to right, and names its connective and the number of its operands.  A condition fails
with its expression, and the error about it gives this reason. -/
theorem lowering_stops_at_first_malformed (e : Expr) :
    ((∃ err, e.relational = .error err) ↔ ∃ p op n, MalformedAt e p op n) ∧
      (∀ err, e.relational = .error err ↔
        ∃ p op n, FirstMalformed e p op n ∧ err = .malformedNode op n) ∧
      (∀ err, Condition.relational e = .error err ↔
        ∃ p op n, FirstMalformed e p op n ∧ err = .conversion e (.malformedNode op n)) ∧
      ∀ (op : Connective) (n : Nat),
        let reason :=
          s!"malformed expression node: '{op.keyword}' node needs at least 2 operands, found {n}"
        (ExprError.malformedNode op n).message = reason ∧
          (ModelError.conversion e (.malformedNode op n)).message =
            s!"cannot convert condition '{e.text}': {reason}" := by
  refine ⟨?_, fun err => ?_, fun err => ?_, fun op n => ?_⟩
  · simp only [relational_eq_error_iff, exists_lower_eq_error_iff]
  · rw [relational_eq_error_iff, lower_eq_error_iff]
  · rw [Condition.relational, mapError_eq_error_iff]
    simp only [relational_eq_error_iff, lower_eq_error_iff]
    constructor
    · rintro ⟨_, ⟨p, op, n, hfirst, rfl⟩, rfl⟩
      exact ⟨p, op, n, hfirst, rfl⟩
    · rintro ⟨p, op, n, hfirst, rfl⟩
      exact ⟨_, ⟨p, op, n, hfirst, rfl⟩, rfl⟩
  · exact ⟨rfl, rfl⟩

/-- The operand of the negation comes before the later, shallower disjunction. -/
example :
    (nary .and [var "a", not (nary .or [lit true, nary .and [var "b"]]), nary .or []]).relational =
      .error (.malformedNode .and 1) := by
  rfl

end Expr

end Moore
