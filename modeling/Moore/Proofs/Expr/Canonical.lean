import Moore.Expr.Printer
import Moore.Proofs.Expr.Lowering
import Moore.Proofs.Expr.Parser

/-
# Canonical text

`Expr.nesting` is the number of parentheses and negations that are open at once in the
canonical text of an expression.

* The canonical text is derived from the grammar with the expression as its tree and with
  just this nesting (`prints_chars`).  So it is parsed back unless it is nested too deeply,
  and that is the only way to fail (`within_parse_text`).
* No text of an expression has a smaller nesting (`Derives.nesting_le`): parentheses that
  the canonical text needs are needed by the grammar.  So whatever was parsed once can be
  printed and parsed again.
-/

namespace Moore

namespace Expr

mutual

/-- The greatest number of parentheses and negations that are open at once in the canonical
text. -/
def nesting : Expr → Nat
  | .lit _ => 0
  | .var _ => 0
  | .not e => e.nesting + e.isNary.toNat + 1
  | .nary op es => nestingAll op es

/-- The nesting of the operands of a node, with the parentheses around them. -/
def nestingAll (op : Connective) : List Expr → Nat
  | [] => 0
  | e :: es => max (e.nesting + (needsParens op e).toNat) (nestingAll op es)

end

/-- The phrase that the canonical text is. -/
def phrase : Expr → Phrase
  | .nary op _ => .chain op
  | _ => .factor

/-- Whether an expression stands in parentheses where a phrase is wanted. -/
def isWrapped : Phrase → Expr → Bool
  | .factor, e => e.isNary
  | .chain .and, e => needsParens .or e
  | .chain .or, _ => false

theorem isWrapped_operand (op : Connective) (e : Expr) :
    isWrapped (.operand op) e = needsParens op e := by
  cases op with
  | or => rfl
  | and =>
    cases e with
    | nary op es => cases op <;> rfl
    | lit | var | not => rfl

/-- The canonical text of an expression in the place of a phrase. -/
def charsAt (p : Phrase) (e : Expr) : List Char :=
  if isWrapped p e then parenthesised e.chars else e.chars

def nestingAt (p : Phrase) (e : Expr) : Nat :=
  e.nesting + (isWrapped p e).toNat

theorem chars_not (e : Expr) : (not e).chars = '!' :: charsAt .factor e := by
  rw [chars]
  rfl

theorem nesting_not (e : Expr) : (not e).nesting = nestingAt .factor e + 1 := by
  rw [nesting]
  rfl

theorem charsAll_cons_cons (op : Connective) (e f : Expr) (es : List Expr) :
    charsAll op (e :: f :: es) =
      charsAt (.operand op) e ++ (separator op ++ charsAll op (f :: es)) := by
  rw [charsAll, charsAt, isWrapped_operand, List.append_assoc]
  simp

theorem charsAll_singleton (op : Connective) (e : Expr) :
    charsAll op [e] = charsAt (.operand op) e := by
  rw [charsAll, charsAt, isWrapped_operand]

theorem nestingAll_cons (op : Connective) (e : Expr) (es : List Expr) :
    nestingAll op (e :: es) = max (nestingAt (.operand op) e) (nestingAll op es) := by
  rw [nestingAll, nestingAt, isWrapped_operand]

end Expr

open Moore.Expr

variable {p : Phrase} {op : Connective} {cs : List Char} {e : Expr} {n : Nat}

/-! ### The canonical text is derived -/

/-- The characters spell a phrase with this tree and nesting. -/
def Prints (p : Phrase) (cs : List Char) (e : Expr) (n : Nat) : Prop :=
  ∃ ks, Lexes cs ks ∧ Derives p ⟨ks, e, n⟩

namespace Prints

theorem not (h : Prints .factor cs e n) : Prints .factor ('!' :: cs) (.not e) (n + 1) := by
  obtain ⟨ks, hlex, hd⟩ := h
  exact ⟨.not :: ks, .mark .bang hlex, .not hd⟩

theorem parenthesised (h : Prints (.chain .or) cs e n) :
    Prints .factor (parenthesised cs) e (n + 1) := by
  obtain ⟨ks, hlex, hd⟩ := h
  have hclose : Lexes [')'] [.closing] := .mark .closing .nil
  have hapart : Apart [')'] := apart_cons.2 (by decide)
  exact ⟨.opening :: (ks ++ [.closing]), .mark .opening (hlex.append hclose hapart), .group hd⟩

theorem single (op : Connective) (h : Prints (.operand op) cs e n) :
    Prints (.chain op) cs e n := by
  obtain ⟨ks, hlex, hd⟩ := h
  exact ⟨ks, hlex, hd.single⟩

/-- A factor may stand in the place of every phrase. -/
theorem of_factor (h : Prints .factor cs e n) (p : Phrase) : Prints p cs e n := by
  match p with
  | .factor => exact h
  | .chain .and => exact single .and h
  | .chain .or => exact single .or (single .and h)

/-- Every phrase may stand in the place of a disjunction. -/
theorem disjunction (h : Prints p cs e n) : Prints (.chain .or) cs e n := by
  match p with
  | .factor => exact h.of_factor (.chain .or)
  | .chain .and => exact single .or h
  | .chain .or => exact h

/-- With the parentheses of the canonical text an expression may stand in every place. -/
theorem at_phrase (h : Prints e.phrase e.chars e e.nesting) (p : Phrase) :
    Prints p (charsAt p e) e (nestingAt p e) := by
  cases hw : isWrapped p e with
  | true =>
    simp only [charsAt, nestingAt, hw]
    exact h.disjunction.parenthesised.of_factor p
  | false =>
    simp only [charsAt, nestingAt, hw]
    match p, e with
    | p, .lit _ | p, .var _ | p, .not _ => exact h.of_factor p
    | .factor, .nary _ _ => cases hw
    | .chain .and, .nary .and _ => exact h
    | .chain .and, .nary .or _ => cases hw
    | .chain .or, .nary _ _ => exact h.disjunction

end Prints

/-- The operator between two operands is spelt. -/
theorem Lexes.separator {ks : List TokenKind} (op : Connective) (h : Lexes cs ks) :
    Lexes (separator op ++ cs) (op.token :: ks) := by
  cases op with
  | and => exact .blank rfl (.mark .ampersand (.blank rfl h))
  | or => exact .blank rfl (.mark .bar (.blank rfl h))

/-- The text of some operands is a chain of them. -/
theorem exists_chain_of_operands {es : List Expr} (hes : es ≠ [])
    (h : ∀ e ∈ es, Prints (.operand op) (charsAt (.operand op) e) e (nestingAt (.operand op) e)) :
    ∃ q qs, Lexes (charsAll op es) (Reading.chain op q qs).tokens ∧ Derives (.operand op) q ∧
      (∀ r ∈ qs, Derives (.operand op) r) ∧ (q :: qs).map Reading.tree = es ∧
      Reading.deepest (q :: qs) = nestingAll op es := by
  induction es with
  | nil => exact absurd rfl hes
  | cons e es ih =>
    obtain ⟨⟨ks, hlex, hd⟩, htail⟩ := List.forall_mem_cons.1 h
    cases es with
    | nil =>
      refine ⟨_, [], ?_, hd, List.forall_mem_nil _, rfl, ?_⟩
      · simpa [charsAll_singleton, Reading.chain] using hlex
      · rw [nestingAll_cons]
        rfl
    | cons f es =>
      obtain ⟨q, qs, hlexes, hq, hqs, htrees, hdeep⟩ := ih (List.cons_ne_nil f es) htail
      refine ⟨_, q :: qs, ?_, hd, List.forall_mem_cons.2 ⟨hq, hqs⟩, ?_, ?_⟩
      · have hapart : Apart (separator op ++ charsAll op (f :: es)) := by
          cases op <;> exact apart_cons.2 (by decide)
        rw [charsAll_cons_cons]
        simpa [Reading.chain] using hlex.append (hlexes.separator op) hapart
      · rw [List.map_cons, htrees]
      · rw [nestingAll_cons, ← hdeep]
        rfl

/-- The canonical text spells the expression, with its nesting. -/
theorem prints_chars (hp : e.Proper) (hn : ∀ x ∈ e.occurrences, isIdentifier x = true) :
    Prints e.phrase e.chars e e.nesting := by
  induction e with
  | lit b =>
    cases b with
    | true => exact ⟨[.lit true], lexes_iff.2 (by decide), .constant true⟩
    | false => exact ⟨[.lit false], lexes_iff.2 (by decide), .constant false⟩
  | var x =>
    obtain ⟨hword, hreserved⟩ := isIdentifier_iff.1 (hn x (by simp))
    have hname : Word (.var x) (String.ofList x.toList) := by
      rw [String.ofList_toList]
      exact .name hreserved
    exact ⟨[.var x], Lexes.of_word hword hname, .name x⟩
  | not e ih =>
    have he := ih (proper_not_iff.1 hp) (by simpa using hn)
    rw [chars_not, nesting_not]
    exact (he.at_phrase .factor).not
  | nary op es ih =>
    obtain ⟨hlen, hes⟩ := proper_nary_iff.1 hp
    have hne : es ≠ [] := by
      rintro rfl
      simp at hlen
    have hoperands : ∀ e ∈ es,
        Prints (.operand op) (charsAt (.operand op) e) e (nestingAt (.operand op) e) := by
      intro e he
      have hnames : ∀ x ∈ e.occurrences, isIdentifier x = true := fun x hx =>
        hn x (mem_occurrences_nary.2 ⟨e, he, hx⟩)
      exact (ih e he (hes e he) hnames).at_phrase (.operand op)
    obtain ⟨q, qs, hlex, hq, hqs, htrees, hdeep⟩ := exists_chain_of_operands hne hoperands
    have hchain : Reading.chain op q qs =
        ⟨(Reading.chain op q qs).tokens, nary op es, nestingAll op es⟩ :=
      Reading.ext rfl (by rw [← joined_eq_nary hlen, ← htrees]; rfl) hdeep
    rw [chars, nesting]
    exact ⟨_, hlex, hchain ▸ Derives.chain hq hqs⟩

theorem exists_readsAs_text (hp : e.Proper) (hn : ∀ x ∈ e.inputs, isIdentifier x = true) :
    ∃ q, ReadsAs e.text q ∧ q.tree = e ∧ q.nesting = e.nesting := by
  have hprints := prints_chars hp fun x hx => hn x (mem_inputs.2 hx)
  obtain ⟨ks, hlex, hd⟩ := hprints.disjunction
  exact ⟨⟨ks, e, e.nesting⟩, ⟨by rwa [text, String.toList_ofList], hd⟩, rfl, rfl⟩

/-- The canonical text is parsed back, or is nested too deeply. -/
theorem within_parse_text (hp : e.Proper) (hn : ∀ x ∈ e.inputs, isIdentifier x = true) :
    Parser.Within e.nesting maxNesting e (Expr.parse e.text) := by
  obtain ⟨q, hq, htree, hnest⟩ := exists_readsAs_text hp hn
  have hparse := within_parse hq
  rwa [htree, hnest] at hparse

/-- Printing and parsing.  The canonical text of an expression with two operands or more at
each node and identifiers as inputs is parsed back to the same tree exactly if its nesting
is at most `maxNesting`, and otherwise it is refused as nested too deeply. -/
theorem reparsed_iff_nesting (e : Expr) (hp : e.Proper)
    (hn : ∀ x ∈ e.inputs, isIdentifier x = true) :
    (Expr.parse e.text = .ok e ↔ e.nesting ≤ maxNesting) ∧
      (¬e.nesting ≤ maxNesting → ∃ position fault,
        Expr.parse e.text = .error (.badSyntax position fault) ∧
          fault.message = "expression nested too deeply") := by
  have hparse := within_parse_text hp hn
  refine ⟨hparse.eq_ok_iff.trans (and_iff_left rfl), fun hdeep => ?_⟩
  obtain ⟨position, herror⟩ := hparse.tooDeep (Nat.lt_of_not_le hdeep)
  exact ⟨position, .tooDeep, herror, rfl⟩

/-- Negations of an input nest as deeply as there are negations. -/
theorem negations_nested (n : Nat) :
    (Nat.repeat Expr.not n (var "a")).Proper ∧
      (∀ x ∈ (Nat.repeat Expr.not n (var "a")).inputs, isIdentifier x = true) ∧
      (Nat.repeat Expr.not n (var "a")).nesting = n := by
  induction n with
  | zero => exact ⟨proper_var "a", by decide, rfl⟩
  | succ n ih =>
    obtain ⟨hp, hn, hnest⟩ := ih
    have hbare : (Nat.repeat Expr.not n (var "a")).isNary = false := by cases n <;> rfl
    refine ⟨proper_not_iff.2 hp, by simpa [Nat.repeat] using hn, ?_⟩
    rw [Nat.repeat, nesting, hnest, hbare]
    rfl

/-- A conjunction within a conjunction keeps its parentheses, and so stays a node of its own.
One negation beyond the limit is printed but not read. -/
theorem nested_conjunction_reparsed :
    let e := nary .and [nary .and [var "a", var "order"], not (nary .or [var "b", lit true])]
    let deep := Nat.repeat Expr.not 257 (var "a")
    e.text = "(a & order) & !(b | TRUE)" ∧ Expr.parse "(a & order) & !(b | TRUE)" = .ok e ∧
      ∃ position fault, Expr.parse deep.text = .error (.badSyntax position fault) ∧
        fault.message = "expression nested too deeply" := by
  intro e deep
  have hp : e.Proper := by simp [e]
  have hn : ∀ x ∈ e.inputs, isIdentifier x = true := by decide
  have htext : e.text = "(a & order) & !(b | TRUE)" := rfl
  obtain ⟨hdp, hdn, hdnest⟩ := negations_nested 257
  have hdeep : ¬deep.nesting ≤ maxNesting := by
    rw [hdnest]
    decide
  refine ⟨htext, ?_, (reparsed_iff_nesting deep hdp hdn).2 hdeep⟩
  rw [← htext]
  exact (reparsed_iff_nesting e hp hn).1.2 (by decide)

/-! ### No text is nested less -/

theorem isWrapped_chain_self (op : Connective) (es : List Expr) :
    isWrapped (.chain op) (nary op es) = false := by
  cases op <;> rfl

/-- A chain needs no more parentheses than its operands. -/
theorem nestingAt_chain_le (op : Connective) (e : Expr) :
    nestingAt (.chain op) e ≤ nestingAt (.operand op) e := by
  refine Nat.add_le_add_left ?_ e.nesting
  cases op with
  | or => exact Nat.zero_le _
  | and =>
    cases e with
    | nary op es =>
      cases op with
      | and => exact Nat.zero_le _
      | or => exact Nat.le_refl _
    | lit | var | not => exact Nat.le_refl _

theorem nestingAll_map_le {qs : List Reading}
    (h : ∀ q ∈ qs, nestingAt (.operand op) q.tree ≤ q.nesting) :
    nestingAll op (qs.map Reading.tree) ≤ Reading.deepest qs := by
  induction qs with
  | nil => exact Nat.le_refl 0
  | cons q qs ih =>
    obtain ⟨hq, hqs⟩ := List.forall_mem_cons.1 h
    rw [List.map_cons, nestingAll_cons, Reading.deepest]
    exact Nat.max_le.2 ⟨Nat.le_trans hq (Nat.le_max_left _ _),
      Nat.le_trans (ih hqs) (Nat.le_max_right _ _)⟩

/-- A phrase is nested as deeply as the canonical text of its tree in its place, or deeper. -/
theorem Derives.nesting_le {q : Reading} (h : Derives p q) : nestingAt p q.tree ≤ q.nesting := by
  induction h with
  | constant b => exact Nat.le_of_eq (by rw [nestingAt, nesting]; rfl)
  | name x => exact Nat.le_of_eq (by rw [nestingAt, nesting]; rfl)
  | @not q _ ih =>
    have hnot : nestingAt .factor (.not q.tree) = nestingAt .factor q.tree + 1 := nesting_not _
    rw [hnot]
    exact Nat.succ_le_succ ih
  | @group q _ ih =>
    exact Nat.add_le_add ih (Bool.toNat_le _)
  | @chain op q qs _ _ ih ihs =>
    cases qs with
    | nil =>
      refine Nat.le_trans (nestingAt_chain_le op q.tree) (Nat.le_trans ih ?_)
      exact Nat.le_max_left _ _
    | cons r rs =>
      have hall : ∀ s ∈ q :: r :: rs, nestingAt (.operand op) s.tree ≤ s.nesting :=
        List.forall_mem_cons.2 ⟨ih, ihs⟩
      have hnode : nestingAt (.chain op) (Reading.chain op q (r :: rs)).tree =
          nestingAll op ((q :: r :: rs).map Reading.tree) := by
        simp only [Reading.chain, List.map_cons, joined_cons_cons, nestingAt,
          isWrapped_chain_self, nesting]
        rfl
      rw [hnode]
      exact nestingAll_map_le hall

/-- Only identifiers are read as variables. -/
theorem isIdentifier_of_parse {text : String} (h : Expr.parse text = .ok e) :
    ∀ x ∈ e.inputs, isIdentifier x = true := by
  obtain ⟨q, hq, -, rfl⟩ := parse_eq_ok_iff.1 h
  intro x hx
  exact hq.lexes.isIdentifier (hq.derives.var_mem_tokens (mem_inputs.1 hx))

theorem parse_text_of_parse {text : String} (h : Expr.parse text = .ok e) :
    Expr.parse e.text = .ok e := by
  have hn := isIdentifier_of_parse h
  obtain ⟨q, hq, hle, rfl⟩ := parse_eq_ok_iff.1 h
  exact (within_parse_text hq.derives.proper hn).ok (Nat.le_trans hq.derives.nesting_le hle)

theorem exists_relational_of_parse {text : String} (h : Expr.parse text = .ok e) :
    ∃ t, e.relational = .ok t := by
  have hn := isIdentifier_of_parse h
  obtain ⟨q, hq, -, rfl⟩ := parse_eq_ok_iff.1 h
  obtain ⟨t, ht, -⟩ := exists_relational hq.derives.proper hn
  exact ⟨t, ht⟩

/-- What was parsed can be printed.  The tree of every parsed text has two operands or more
at each node and identifiers as inputs.  The text has one reading, whose nesting is within
the limit and no less than that of the canonical text.  So the canonical text is parsed back
to the tree, and the tree has a relational text. -/
theorem parsed_is_canonical (text : String) (e : Expr) (h : Expr.parse text = .ok e) :
    e.Proper ∧ (∀ x ∈ e.inputs, isIdentifier x = true) ∧
      (∃ q, (∀ q', ReadsAs text q' ↔ q' = q) ∧ q.tree = e ∧ e.nesting ≤ q.nesting ∧
        q.nesting ≤ maxNesting) ∧
      Expr.parse e.text = .ok e ∧ ∃ t, e.relational = .ok t := by
  obtain ⟨q, hq, hle, rfl⟩ := parse_eq_ok_iff.1 h
  have hp : q.tree.Proper := hq.derives.proper
  have hn : ∀ x ∈ q.tree.inputs, isIdentifier x = true := fun x hx =>
    hq.lexes.isIdentifier (hq.derives.var_mem_tokens (mem_inputs.1 hx))
  have hnest : q.tree.nesting ≤ q.nesting := hq.derives.nesting_le
  have hunique : ∀ q', ReadsAs text q' ↔ q' = q := fun q' =>
    ⟨fun hq' => hq'.unique hq, fun heq => heq ▸ hq⟩
  obtain ⟨t, ht, -⟩ := exists_relational hp hn
  refine ⟨hp, hn, ⟨q, hunique, rfl, hnest, hle⟩, ?_, t, ht⟩
  exact (within_parse_text hp hn).ok (Nat.le_trans hnest hle)

/-- Parentheses that are not needed are gone from the canonical text. -/
theorem redundant_parentheses_dropped :
    let e := nary .and [not (var "a"), nary .or [var "b", var "c"]]
    Expr.parse "NOT ((a)) and ((b, c))" = .ok e ∧ e.text = "!a & (b | c)" ∧ e.nesting = 1 ∧
      Expr.parse "!a & (b | c)" = .ok e := by
  intro e
  have hparse : Expr.parse "NOT ((a)) and ((b, c))" = .ok e := rfl
  have htext : e.text = "!a & (b | c)" := rfl
  obtain ⟨-, -, -, hcanonical, -⟩ := parsed_is_canonical _ e hparse
  exact ⟨hparse, htext, rfl, htext ▸ hcanonical⟩

end Moore
