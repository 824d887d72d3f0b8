import Moore.Proofs.Expr.Grammar
import Moore.Proofs.Expr.Lexeme

/-
# Relational text

    disjunction := conjunction (' or ' conjunction)*
    conjunction := unit (' and ' unit)*
    unit        := 'not (' disjunction ')' | '(' disjunction ')'
                 | name='1' | name='0' | 'true' | 'false'

`Relational` is the type of the derivations in this grammar; `Relational.chars` is the text
of a derivation and `Relational.eval` its value.  A text has one derivation at most
(`Relational.eq_of_chars_eq`), so the value of a text is well defined: the first word of a
unit tells its form (`Relational.form_eq_ofWord`), and what follows a phrase never looks
like a part of it (`Relational.Closes`).
-/

namespace Moore

namespace Connective

/-- The value of two operands together. -/
def combine : Connective → Bool → Bool → Bool
  | and, a, b => a && b
  | or, a, b => a || b

theorem combine_assoc (op : Connective) (a b c : Bool) :
    op.combine (op.combine a b) c = op.combine a (op.combine b c) := by
  cases op with
  | and => exact Bool.and_assoc a b c
  | or => exact Bool.or_assoc a b c

end Connective

/-- The binding strength that the text of a phrase must have. -/
def Phrase.precedence : Phrase → Nat
  | factor => 3
  | chain op => op.precedence

/-- A name with the form of an identifier. -/
def Identifier := { x : String // isIdentifier x = true }

/-- The derivations of relational text. -/
inductive Relational : Phrase → Type where
  | constant (b : Bool) : Relational .factor
  /-- The input has this value. -/
  | level (x : Identifier) (b : Bool) : Relational .factor
  | negated (r : Relational (.chain .or)) : Relational .factor
  | grouped (r : Relational (.chain .or)) : Relational .factor
  | last {op : Connective} (r : Relational (.operand op)) : Relational (.chain op)
  | more {op : Connective} (r : Relational (.operand op)) (rs : Relational (.chain op)) :
      Relational (.chain op)

/-- No identifier is spelt like a reserved word. -/
theorem Identifier.toList_ne {s : String} (x : Identifier) (hs : isIdentifier s = false) :
    x.1.toList ≠ s.toList := by
  intro h
  have hx := x.2
  rw [String.toList_inj.1 h, hs] at hx
  cases hx

namespace Relational

/-- The operator between two operands. -/
def joint (op : Connective) : List Char :=
  ' ' :: op.keyword.toList ++ [' ']

/-- The word of a constant. -/
def constantWord : Bool → List Char
  | true => "true".toList
  | false => "false".toList

/-- The comparison of an input with a level. -/
def comparison : Bool → List Char
  | true => "='1'".toList
  | false => "='0'".toList

/-- The text of a derivation. -/
def chars : {p : Phrase} → Relational p → List Char
  | _, constant b => constantWord b
  | _, level x b => x.1.toList ++ comparison b
  | _, negated r => "not (".toList ++ r.chars ++ [')']
  | _, grouped r => '(' :: r.chars ++ [')']
  | _, last r => r.chars
  | _, @more op r rs => r.chars ++ joint op ++ rs.chars

/-- The value of a derivation when the input `x` has the value `σ x`. -/
def eval (σ : String → Bool) : {p : Phrase} → Relational p → Bool
  | _, constant b => b
  | _, level x b => σ x.1 == b
  | _, negated r => !r.eval σ
  | _, grouped r => r.eval σ
  | _, last r => r.eval σ
  | _, @more op r rs => op.combine (r.eval σ) (rs.eval σ)

variable {p : Phrase} {op : Connective} {rest rest' : List Char}

theorem chars_negated (r : Relational (.chain .or)) :
    (negated r).chars = "not (".toList ++ r.chars ++ [')'] := rfl

theorem chars_grouped (r : Relational (.chain .or)) :
    (grouped r).chars = '(' :: r.chars ++ [')'] := rfl

theorem chars_more (r : Relational (.operand op)) (rs : Relational (.chain op)) :
    (more r rs).chars = r.chars ++ joint op ++ rs.chars := rfl

theorem eval_more (σ : String → Bool) (r : Relational (.operand op)) (rs : Relational (.chain op)) :
    (more r rs).eval σ = op.combine (r.eval σ) (rs.eval σ) := rfl

/-! ### One derivation for each text -/

/-- The text after a phrase neither continues a word nor carries the phrase on. -/
structure Closes (p : Phrase) (rest : List Char) : Prop where
  apart : Apart rest
  not_joint : ∀ op ∈ p.continuers, ¬joint op <+: rest

theorem closes_nil : Closes p [] where
  apart := apart_nil
  not_joint op _ h := by cases op <;> simp [joint] at h

theorem closes_paren (rest : List Char) : Closes p (')' :: rest) where
  apart := apart_cons.2 (by decide)
  not_joint op _ h := by cases op <;> simp [joint] at h

theorem Closes.operand (h : Closes (.chain op) rest) : Closes (.operand op) rest where
  apart := h.apart
  not_joint op' hop := h.not_joint op' (Phrase.continuers_operand_subset op hop)

/-- The operator of a chain closes its operand. -/
theorem closes_joint (op : Connective) (rest : List Char) :
    Closes (.operand op) (joint op ++ rest) where
  apart := apart_cons.2 (by decide)
  not_joint op' hop h := by
    have hne : op' ≠ op := by
      rintro rfl
      exact Phrase.not_mem_continuers_operand _ hop
    cases op <;> cases op' <;> simp [joint, Connective.keyword] at h hne

/-- The first word of a unit; a parenthesis comes after the empty word. -/
def word : Relational .factor → List Char
  | constant b => constantWord b
  | level x _ => x.1.toList
  | negated _ => "not".toList
  | grouped _ => []

/-- A unit without its first word. -/
def afterWord : Relational .factor → List Char
  | constant _ => []
  | level _ b => comparison b
  | negated r => " (".toList ++ r.chars ++ [')']
  | grouped r => '(' :: r.chars ++ [')']

theorem chars_eq_word_append (r : Relational .factor) : r.chars = r.word ++ r.afterWord := by
  cases r with
  | constant b => exact (List.append_nil _).symm
  | level x b => rfl
  | negated r => rfl
  | grouped r => rfl

theorem isWordChar_of_mem_word (r : Relational .factor) : ∀ d ∈ r.word, isWordChar d = true := by
  cases r with
  | constant b => cases b <;> exact List.all_eq_true.1 rfl
  | level x b => exact (isIdentifier_iff.1 x.2).1.forall_isWordChar
  | negated r => exact List.all_eq_true.1 rfl
  | grouped r => exact List.forall_mem_nil _

theorem apart_afterWord (r : Relational .factor) (h : Apart rest) :
    Apart (r.afterWord ++ rest) := by
  cases r with
  | constant b => exact h
  | level x b => cases b <;> exact apart_cons.2 (by decide)
  | negated r => exact apart_cons.2 (by decide)
  | grouped r => exact apart_cons.2 (by decide)

theorem comparison_append_inj {b b' : Bool} (h : comparison b ++ rest = comparison b' ++ rest') :
    b = b' ∧ rest = rest' := by
  have hlen : ∀ b b', (comparison b).length = (comparison b').length := by decide
  have hinj : ∀ b b', comparison b = comparison b' → b = b' := by decide
  obtain ⟨hcmp, hrest⟩ := List.append_inj h (hlen b b')
  exact ⟨hinj b b' hcmp, hrest⟩

/-- The forms of units. -/
inductive Form where
  | constant (b : Bool)
  | level (name : List Char)
  | negated
  | grouped

def form : Relational .factor → Form
  | constant b => .constant b
  | level x _ => .level x.1.toList
  | negated _ => .negated
  | grouped _ => .grouped

/-- The form of the units that begin with a word. -/
def Form.ofWord (w : List Char) : Form :=
  if w = "true".toList then .constant true
  else if w = "false".toList then .constant false
  else if w = "not".toList then .negated
  else if w = "".toList then .grouped
  else .level w

theorem form_eq_ofWord (r : Relational .factor) : r.form = .ofWord r.word := by
  cases r with
  | constant b => cases b <;> rfl
  | level x b =>
    have htrue := x.toList_ne (s := "true") (by decide)
    have hfalse := x.toList_ne (s := "false") (by decide)
    have hnot := x.toList_ne (s := "not") (by decide)
    have hempty := x.toList_ne (s := "") (by decide)
    rw [word, Form.ofWord, if_neg htrue, if_neg hfalse, if_neg hnot, if_neg hempty, form]
  | negated r => rfl
  | grouped r => rfl

/-- Units that begin a text agree in their form and in what follows the first word. -/
theorem form_eq_of_chars_append_eq {r r' : Relational .factor} (h : Closes .factor rest)
    (h' : Closes .factor rest') (heq : r.chars ++ rest = r'.chars ++ rest') :
    r.form = r'.form ∧ r.afterWord ++ rest = r'.afterWord ++ rest' := by
  rw [chars_eq_word_append, chars_eq_word_append, List.append_assoc, List.append_assoc] at heq
  obtain ⟨hword, hafter⟩ := append_inj_of_apart r.isWordChar_of_mem_word
    r'.isWordChar_of_mem_word (r.apart_afterWord h.apart) (r'.apart_afterWord h'.apart) heq
  exact ⟨by rw [form_eq_ofWord, form_eq_ofWord, hword], hafter⟩

/-- The text of a phrase tells where the phrase ends and how it is derived. -/
theorem chars_append_inj (r r' : Relational p) (h : Closes p rest) (h' : Closes p rest')
    (heq : r.chars ++ rest = r'.chars ++ rest') : r = r' ∧ rest = rest' := by
  induction r generalizing rest rest' with
  | constant b =>
    obtain ⟨hform, hafter⟩ := form_eq_of_chars_append_eq h h' heq
    cases r' with
    | constant b' =>
      cases hform
      exact ⟨rfl, hafter⟩
    | level | negated | grouped => cases hform
  | level x b =>
    obtain ⟨hform, hafter⟩ := form_eq_of_chars_append_eq h h' heq
    cases r' with
    | level x' b' =>
      obtain rfl : x = x' := Subtype.ext (String.toList_inj.1 (Form.level.inj hform))
      obtain ⟨rfl, rfl⟩ := comparison_append_inj hafter
      exact ⟨rfl, rfl⟩
    | constant | negated | grouped => cases hform
  | negated r ih =>
    obtain ⟨hform, hafter⟩ := form_eq_of_chars_append_eq h h' heq
    cases r' with
    | negated r' =>
      have hbody : r.chars ++ ')' :: rest = r'.chars ++ ')' :: rest' := by
        simpa [afterWord] using hafter
      obtain ⟨rfl, hrest⟩ := ih r' (closes_paren rest) (closes_paren rest') hbody
      exact ⟨rfl, (List.cons.inj hrest).2⟩
    | constant | level | grouped => cases hform
  | grouped r ih =>
    obtain ⟨hform, hafter⟩ := form_eq_of_chars_append_eq h h' heq
    cases r' with
    | grouped r' =>
      have hbody : r.chars ++ ')' :: rest = r'.chars ++ ')' :: rest' := by
        simpa [afterWord] using hafter
      obtain ⟨rfl, hrest⟩ := ih r' (closes_paren rest) (closes_paren rest') hbody
      exact ⟨rfl, (List.cons.inj hrest).2⟩
    | constant | level | negated => cases hform
  | @last op r ih =>
    cases r' with
    | last r' =>
      obtain ⟨rfl, rfl⟩ := ih r' h.operand h'.operand heq
      exact ⟨rfl, rfl⟩
    | more r' rs' =>
      simp only [chars_more, List.append_assoc] at heq
      obtain ⟨-, rfl⟩ := ih r' h.operand (closes_joint op _) heq
      exact absurd (List.prefix_append _ _) (h.not_joint op (Phrase.mem_continuers_chain op))
  | @more op r rs ih ihs =>
    cases r' with
    | last r' =>
      simp only [chars_more, List.append_assoc] at heq
      obtain ⟨-, rfl⟩ := ih r' (closes_joint op _) h'.operand heq
      exact absurd (List.prefix_append _ _) (h'.not_joint op (Phrase.mem_continuers_chain op))
    | more r' rs' =>
      simp only [chars_more, List.append_assoc] at heq
      obtain ⟨rfl, hlater⟩ := ih r' (closes_joint op _) (closes_joint op _) heq
      obtain ⟨rfl, rfl⟩ := ihs rs' h h' (List.append_cancel_left hlater)
      exact ⟨rfl, rfl⟩

/-- A text is read in one way only. -/
theorem eq_of_chars_eq {r r' : Relational p} (h : r.chars = r'.chars) : r = r' :=
  (chars_append_inj r r' closes_nil closes_nil (by rw [h])).1

/-! ### Derivations put together -/

/-- A unit in the place of a phrase. -/
def ofUnit (u : Relational .factor) : (p : Phrase) → Relational p
  | .factor => u
  | .chain .and => @last .and u
  | .chain .or => @last .or (@last .and u)

theorem chars_ofUnit (u : Relational .factor) (p : Phrase) : (ofUnit u p).chars = u.chars := by
  match p with
  | .factor | .chain .and | .chain .or => rfl

theorem eval_ofUnit (σ : String → Bool) (u : Relational .factor) (p : Phrase) :
    (ofUnit u p).eval σ = u.eval σ := by
  match p with
  | .factor | .chain .and | .chain .or => rfl

/-- A chain in the place of a disjunction. -/
def ofChain : {op : Connective} → Relational (.chain op) → Relational (.chain .or)
  | .and, r => @last .or r
  | .or, r => r

theorem chars_ofChain (r : Relational (.chain op)) : (ofChain r).chars = r.chars := by
  cases op <;> rfl

theorem eval_ofChain (σ : String → Bool) (r : Relational (.chain op)) :
    (ofChain r).eval σ = r.eval σ := by
  cases op <;> rfl

/-- Two chains of one connective run together are a chain. -/
theorem exists_append (r : Relational p) (hp : p = .chain op) (s : Relational (.chain op)) :
    ∃ t : Relational (.chain op), t.chars = r.chars ++ joint op ++ s.chars ∧
      ∀ σ, t.eval σ = op.combine (r.eval σ) (s.eval σ) := by
  induction r with
  | constant | level | negated | grouped => cases hp
  | last r =>
    cases hp
    exact ⟨more r s, rfl, fun σ => rfl⟩
  | more r rs _ ih =>
    cases hp
    obtain ⟨t, ht, hσ⟩ := ih rfl
    refine ⟨more r t, ?_, fun σ => ?_⟩
    · rw [chars_more, chars_more, ht]
      simp only [List.append_assoc]
    · rw [eval_more, eval_more, hσ, Connective.combine_assoc]

end Relational

end Moore
