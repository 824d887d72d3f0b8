import Moore.Expr.Token

/-
# The grammar of conditions

    disjunction := conjunction (or conjunction)*
    conjunction := factor (and factor)*
    factor      := not factor | opening disjunction closing | constant | name

`Derives` is this grammar as a relation between the tokens of a phrase, its tree and its
nesting, the greatest number of parentheses and negations open at once.

A chain of operands is collected into one node, so no tree has a node with fewer than two
operands (`Derives.proper`), and a tree has only names that occur among the tokens
(`Derives.var_mem_tokens`).
-/

namespace Moore

/-- The operator token of a connective. -/
def Connective.token : Connective → TokenKind
  | and => .and
  | or => .or

/-- The parts of a condition: factors, and chains of operands of one connective. -/
inductive Phrase where
  | factor
  | chain (op : Connective)

namespace Phrase

/-- The operands of a chain: conjunctions join factors, and disjunctions conjunctions. -/
def operand : Connective → Phrase
  | .and => .factor
  | .or => .chain .and

/-- The connectives that carry a phrase on when their operator follows it. -/
def continuers : Phrase → List Connective
  | factor => []
  | chain .and => [.and]
  | chain .or => [.and, .or]

theorem not_mem_continuers_operand (op : Connective) : op ∉ (operand op).continuers := by
  cases op <;> simp [operand, continuers]

/-- A chain is carried on by its own operator and by what carries on its last operand. -/
theorem mem_continuers_chain_iff {op op' : Connective} :
    op' ∈ (chain op).continuers ↔ op' = op ∨ op' ∈ (operand op).continuers := by
  cases op <;> cases op' <;> simp [operand, continuers]

theorem mem_continuers_chain (op : Connective) : op ∈ (chain op).continuers :=
  mem_continuers_chain_iff.2 (.inl rfl)

theorem continuers_operand_subset (op : Connective) :
    (operand op).continuers ⊆ (chain op).continuers :=
  fun _ h => mem_continuers_chain_iff.2 (.inr h)

end Phrase

/-- A phrase as it is read: its tokens, its tree, and the greatest number of parentheses
and negations that are open at once. -/
@[ext]
structure Reading where
  tokens : List TokenKind
  tree : Expr
  nesting : Nat

namespace Reading

/-- The nesting of several phrases in a row. -/
def deepest : List Reading → Nat
  | [] => 0
  | q :: qs => max q.nesting (deepest qs)

/-- Operands with the operator between them.  A chain of one operand is that operand, and a
longer chain is one node. -/
def chain (op : Connective) (q : Reading) (qs : List Reading) : Reading where
  tokens := q.tokens ++ qs.flatMap fun r => op.token :: r.tokens
  tree := Expr.joined op ((q :: qs).map tree)
  nesting := deepest (q :: qs)

end Reading

/-- The grammar of conditions. -/
inductive Derives : Phrase → Reading → Prop where
  | constant (b : Bool) : Derives .factor ⟨[.lit b], .lit b, 0⟩
  | name (x : String) : Derives .factor ⟨[.var x], .var x, 0⟩
  | not {q : Reading} : Derives .factor q →
      Derives .factor ⟨.not :: q.tokens, .not q.tree, q.nesting + 1⟩
  | group {q : Reading} : Derives (.chain .or) q →
      Derives .factor ⟨.opening :: (q.tokens ++ [.closing]), q.tree, q.nesting + 1⟩
  | chain {op : Connective} {q : Reading} {qs : List Reading} : Derives (.operand op) q →
      (∀ r ∈ qs, Derives (.operand op) r) → Derives (.chain op) (.chain op q qs)

/-- A chain of one operand. -/
theorem Derives.single {op : Connective} {q : Reading} (h : Derives (.operand op) q) :
    Derives (.chain op) q := by
  have hchain := Derives.chain h (List.forall_mem_nil _)
  simpa [Reading.chain, Reading.deepest] using hchain

theorem Derives.tokens_ne_nil {p : Phrase} {q : Reading} (h : Derives p q) : q.tokens ≠ [] := by
  induction h with
  | constant | name | not | group => simp
  | chain _ _ ih =>
    intro hnil
    exact ih (List.append_eq_nil_iff.1 hnil).1

theorem Derives.other_not_mem {p : Phrase} {q : Reading} (h : Derives p q) :
    .other ∉ q.tokens := by
  induction h with
  | constant | name => simp
  | not _ ih | group _ ih => simpa using ih
  | @chain op q qs _ _ ih ihs =>
    have hop : op.token ≠ .other := by cases op <;> simp [Connective.token]
    simp only [Reading.chain, List.mem_append, List.mem_flatMap, List.mem_cons]
    rintro (hmem | ⟨r, hr, heq | hmem⟩)
    · exact ih hmem
    · exact hop heq.symm
    · exact ihs r hr hmem

/-! ### Phrases of limited nesting -/

/-- The tokens are a phrase with at most `depth` parentheses and negations open at once. -/
structure Fits (p : Phrase) (depth : Nat) (q : Reading) (ks : List TokenKind) : Prop where
  derives : Derives p q
  nesting_le : q.nesting ≤ depth
  tokens_eq : q.tokens = ks

/-- The tokens are further operands of a chain, each one after the operator. -/
structure FitsTail (op : Connective) (depth : Nat) (qs : List Reading) (ks : List TokenKind) :
    Prop where
  derives : ∀ q ∈ qs, Derives (.operand op) q
  nesting_le : Reading.deepest qs ≤ depth
  tokens_eq : (qs.flatMap fun q => op.token :: q.tokens) = ks

section Fits

variable {op : Connective} {depth : Nat} {q : Reading} {qs : List Reading}
  {ks ls : List TokenKind}

theorem fits_constant (b : Bool) (depth : Nat) :
    Fits .factor depth ⟨[.lit b], .lit b, 0⟩ [.lit b] :=
  ⟨.constant b, Nat.zero_le _, rfl⟩

theorem fits_name (x : String) (depth : Nat) :
    Fits .factor depth ⟨[.var x], .var x, 0⟩ [.var x] :=
  ⟨.name x, Nat.zero_le _, rfl⟩

theorem Fits.not (h : Fits .factor depth q ks) :
    Fits .factor (depth + 1) ⟨.not :: q.tokens, .not q.tree, q.nesting + 1⟩ (.not :: ks) :=
  ⟨.not h.derives, Nat.succ_le_succ h.nesting_le, congrArg _ h.tokens_eq⟩

theorem Fits.group (h : Fits (.chain .or) depth q ks) :
    Fits .factor (depth + 1) ⟨.opening :: (q.tokens ++ [.closing]), q.tree, q.nesting + 1⟩
      (.opening :: (ks ++ [.closing])) :=
  ⟨.group h.derives, Nat.succ_le_succ h.nesting_le, by rw [h.tokens_eq]⟩

theorem fitsTail_nil (op : Connective) (depth : Nat) : FitsTail op depth [] [] :=
  ⟨List.forall_mem_nil _, Nat.zero_le _, rfl⟩

theorem FitsTail.cons (h : Fits (.operand op) depth q ks) (ht : FitsTail op depth qs ls) :
    FitsTail op depth (q :: qs) (op.token :: (ks ++ ls)) :=
  ⟨List.forall_mem_cons.2 ⟨h.derives, ht.derives⟩, Nat.max_le.2 ⟨h.nesting_le, ht.nesting_le⟩,
    by rw [List.flatMap_cons, h.tokens_eq, ht.tokens_eq, List.cons_append]⟩

theorem Fits.chain (h : Fits (.operand op) depth q ks) (ht : FitsTail op depth qs ls) :
    Fits (.chain op) depth (.chain op q qs) (ks ++ ls) :=
  ⟨.chain h.derives ht.derives, Nat.max_le.2 ⟨h.nesting_le, ht.nesting_le⟩,
    by rw [Reading.chain, h.tokens_eq, ht.tokens_eq]⟩

end Fits

/-! ### Trees of the grammar -/

/-- Every node of a connective has at least two operands. -/
inductive Expr.Proper : Expr → Prop where
  | lit (b : Bool) : Proper (.lit b)
  | var (x : String) : Proper (.var x)
  | not {e : Expr} : Proper e → Proper (.not e)
  | nary {op : Connective} {es : List Expr} :
      2 ≤ es.length → (∀ e ∈ es, Proper e) → Proper (.nary op es)

namespace Expr

@[simp] theorem proper_lit (b : Bool) : (lit b).Proper := .lit b

@[simp] theorem proper_var (x : String) : (var x).Proper := .var x

@[simp] theorem proper_not_iff {e : Expr} : (not e).Proper ↔ e.Proper := by
  constructor
  · rintro ⟨⟩
    assumption
  · exact .not

@[simp] theorem proper_nary_iff {op : Connective} {es : List Expr} :
    (nary op es).Proper ↔ 2 ≤ es.length ∧ ∀ e ∈ es, e.Proper := by
  constructor
  · rintro ⟨⟩
    exact ⟨‹_›, ‹_›⟩
  · rintro ⟨hlen, hes⟩
    exact .nary hlen hes

end Expr

theorem Expr.Proper.joined {op : Connective} {es : List Expr} (h : ∀ e ∈ es, e.Proper) :
    (Expr.joined op es).Proper := by
  match es with
  | [] => exact .lit op.unit
  | [e] => exact h e (List.mem_singleton_self e)
  | e :: f :: es => exact .nary (by simp) h

theorem Derives.proper {p : Phrase} {q : Reading} (h : Derives p q) : q.tree.Proper := by
  induction h with
  | constant b => exact .lit b
  | name x => exact .var x
  | not _ ih => exact .not ih
  | group _ ih => exact ih
  | chain _ _ ih ihs =>
    apply Expr.Proper.joined
    rw [List.map_cons, List.forall_mem_cons, List.forall_mem_map]
    exact ⟨ih, ihs⟩

/-- Every input of a tree is a name among the tokens. -/
theorem Derives.var_mem_tokens {p : Phrase} {q : Reading} {x : String} (h : Derives p q)
    (hx : x ∈ q.tree.occurrences) : .var x ∈ q.tokens := by
  induction h with
  | constant b => simp at hx
  | name y => simpa using hx
  | not _ ih =>
    exact List.mem_cons_of_mem _ (ih (by simpa using hx))
  | group _ ih =>
    exact List.mem_cons_of_mem _ (List.mem_append_left _ (ih hx))
  | @chain op q qs _ _ ih ihs =>
    obtain ⟨e, he, hxe⟩ := Expr.mem_occurrences_joined.1 hx
    obtain ⟨r, hr, rfl⟩ := List.mem_map.1 he
    rcases List.mem_cons.1 hr with rfl | hr
    · exact List.mem_append_left _ (ih hxe)
    · refine List.mem_append_right _ (List.mem_flatMap.2 ⟨r, hr, ?_⟩)
      exact List.mem_cons_of_mem _ (ihs r hr hxe)

end Moore
