import Moore.Expr.Parser
import Moore.Proofs.Except
import Moore.Proofs.Expr.Grammar
import Moore.Proofs.Expr.Lexeme

/-
# The parser decides the grammar

* What the parser accepts is derived, within the nesting that was allowed, and the tokens
  left do not carry it on (`sound_factor`, `sound_disjunction`).
* What is derived within that nesting is accepted with the derived tree, and what needs
  more is refused as nested too deeply, not for any other reason (`reads_phrase`).

So a sequence of tokens has one derivation at most (`Derives.unique`), and by `lexes_iff`
the parser reads a text exactly if the text spells a derived sequence of tokens
(`parse_eq_ok_iff`).
-/

namespace Moore

namespace Parser

variable {op : Connective} {item : Reader} {p : Phrase} {depth stop : Nat} {q : Reading}

/-- The reader of a phrase. -/
def phrase (stop depth : Nat) : Phrase → Reader
  | .factor => factor stop depth
  | .chain .and => chain .and .and (factor stop depth)
  | .chain .or => disjunction (factor stop depth)

theorem phrase_chain (stop depth : Nat) (op : Connective) :
    phrase stop depth (.chain op) = chain op.token op (phrase stop depth (.operand op)) := by
  cases op <;> rfl

/-! ### Where phrases end -/

/-- The tokens do not carry the phrase on. -/
def Ends (p : Phrase) (ts : List Token) : Prop :=
  ∀ op ∈ p.continuers, ∀ t ∈ ts.head?, t.kind ≠ op.token

theorem ends_nil : Ends p [] := by
  simp [Ends]

theorem ends_cons_of_closing {t : Token} {ts : List Token} (h : t.kind = .closing) :
    Ends p (t :: ts) := by
  rintro (_ | _) _ _ ⟨⟩ <;> simp [h, Connective.token]

theorem ends_chain_iff {ts : List Token} :
    Ends (.chain op) ts ↔ Ends (.operand op) ts ∧ ∀ t ∈ ts.head?, t.kind ≠ op.token := by
  simp only [Ends, Phrase.mem_continuers_chain_iff, or_imp, forall_and, forall_eq]
  exact And.comm

theorem ends_factor (ts : List Token) : Ends .factor ts := by
  simp [Ends, Phrase.continuers]

/-- The operator of a chain ends its operand. -/
theorem ends_operand_cons {t : Token} {ts : List Token} (h : t.kind = op.token) :
    Ends (.operand op) (t :: ts) := by
  rintro op' hop _ ⟨⟩ heq
  have hne : op' ≠ op := by
    rintro rfl
    exact Phrase.not_mem_continuers_operand _ hop
  cases op <;> cases op' <;> simp_all [Connective.token]

theorem Ends.operand {ts : List Token} (h : Ends (.chain op) ts) : Ends (.operand op) ts :=
  fun op' hop => h op' (Phrase.continuers_operand_subset op hop)

/-- So an operand ends before the operators and operands that follow it in its chain. -/
theorem Ends.before_operands {ts rest : List Token} {qs : List Reading}
    (h : Ends (.chain op) rest)
    (hts : ts.map Token.kind = qs.flatMap fun q => op.token :: q.tokens) :
    Ends (.operand op) (ts ++ rest) := by
  cases qs with
  | nil =>
    obtain rfl : ts = [] := by simpa using hts
    exact h.operand
  | cons q qs =>
    cases ts with
    | nil => simp at hts
    | cons t ts => exact ends_operand_cons (List.cons.inj hts).1

/-! ### The forms of a factor -/

section Factor

variable {t : Token} {ts : List Token}

-- The kind of the first token and the depth choose one equation.
attribute [local simp] factor

theorem factor_constant {b : Bool} (ht : t.kind = .lit b) :
    factor stop depth (t :: ts) = .ok (.lit b, ts) := by
  simp [ht]

theorem factor_name {x : String} (ht : t.kind = .var x) :
    factor stop depth (t :: ts) = .ok (.var x, ts) := by
  simp [ht]

theorem factor_not (ht : t.kind = .not) : factor stop (depth + 1) (t :: ts) = (do
    let (e, ts) ← factor stop depth ts
    return (.not e, ts)) := by
  simp [ht]

theorem factor_group (ht : t.kind = .opening) : factor stop (depth + 1) (t :: ts) = (do
    let (e, ts) ← disjunction (factor stop depth) ts
    let ts ← close stop t.position ts
    return (e, ts)) := by
  simp [ht]

theorem factor_nil : factor stop depth [] = .error (.badSyntax stop .unexpectedEnd) := by
  simp

theorem factor_tooDeep (ht : t.kind = .not ∨ t.kind = .opening) :
    factor stop 0 (t :: ts) = .error (.badSyntax t.position .tooDeep) := by
  rcases ht with ht | ht <;> simp [ht]

theorem factor_noOperand
    (ht : t.kind = .and ∨ t.kind = .or ∨ t.kind = .closing ∨ t.kind = .other) :
    factor stop depth (t :: ts) = .error (.badSyntax t.position (noOperand t)) := by
  rcases ht with ht | ht | ht | ht <;> simp [ht]

end Factor

/-! ### What is accepted is derived -/

/-- Whatever the reader accepts is a phrase, nested no deeper than `depth`, and the tokens
left do not carry it on. -/
def Sound (item : Reader) (p : Phrase) (depth : Nat) : Prop :=
  ∀ ts e rest, item ts = .ok (e, rest) → ∃ us q, ts = us ++ rest ∧ Ends p rest ∧
    Fits p depth q (us.map Token.kind) ∧ q.tree = e

/-- The operands that are read after the first one. -/
theorem sound_more (h : Sound item (.operand op) depth) {bound : Nat} {ts rest : List Token}
    {es : List Expr} (hts : more op.token item bound ts = .ok (es, rest))
    (hbound : ts.length ≤ bound) (hends : Ends (.operand op) ts) :
    ∃ us qs, ts = us ++ rest ∧ Ends (.chain op) rest ∧
      FitsTail op depth qs (us.map Token.kind) ∧ qs.map Reading.tree = es := by
  induction bound generalizing ts es with
  | zero =>
    obtain rfl : ts = [] := by simpa using hbound
    cases hts
    exact ⟨[], [], rfl, ends_nil, fitsTail_nil op depth, rfl⟩
  | succ bound ih =>
    cases ts with
    | nil =>
      cases hts
      exact ⟨[], [], rfl, ends_nil, fitsTail_nil op depth, rfl⟩
    | cons t ts =>
      rw [more] at hts
      split at hts
      · next ht =>
        simp only [bind_eq_ok_iff, pure_eq_ok_iff] at hts
        obtain ⟨⟨e, later⟩, hitem, ⟨es', rest'⟩, hmore, heq⟩ := hts
        cases heq
        obtain ⟨us, q, rfl, hlater, hq, rfl⟩ := h _ _ _ hitem
        have hlen : later.length ≤ bound := by
          simp only [List.length_cons, List.length_append] at hbound
          omega
        obtain ⟨vs, qs, rfl, hrest, hqs, rfl⟩ := ih hmore hlen hlater
        refine ⟨t :: (us ++ vs), q :: qs, by simp, hrest, ?_, rfl⟩
        rw [List.map_cons, List.map_append, ht]
        exact hqs.cons hq
      · next ht =>
        cases hts
        have hstop : Ends (.chain op) (t :: ts) := ends_chain_iff.2 ⟨hends, by simpa using ht⟩
        exact ⟨[], [], rfl, hstop, fitsTail_nil op depth, rfl⟩

theorem sound_chain (op : Connective) (h : Sound item (.operand op) depth) :
    Sound (chain op.token op item) (.chain op) depth := by
  intro ts e rest hts
  simp only [chain, bind_eq_ok_iff, pure_eq_ok_iff] at hts
  obtain ⟨⟨e, later⟩, hitem, ⟨es, rest'⟩, hmore, heq⟩ := hts
  cases heq
  obtain ⟨us, q, rfl, hlater, hq, rfl⟩ := h _ _ _ hitem
  obtain ⟨vs, qs, rfl, hrest, hqs, rfl⟩ := sound_more h hmore (Nat.le_refl _) hlater
  refine ⟨us ++ vs, .chain op q qs, by rw [List.append_assoc], hrest, ?_, rfl⟩
  rw [List.map_append]
  exact hq.chain hqs

theorem sound_disjunction (h : Sound item .factor depth) :
    Sound (disjunction item) (.chain .or) depth :=
  sound_chain .or (sound_chain .and h)

/-- Only the parenthesis that closes is dropped. -/
theorem close_eq_ok_iff {opening : Nat} {ts rest : List Token} :
    close stop opening ts = .ok rest ↔ ∃ t, ts = t :: rest ∧ t.kind = .closing := by
  constructor
  · intro h
    cases ts with
    | nil => cases h
    | cons t ts =>
      rw [close] at h
      split at h
      · next ht =>
        cases h
        exact ⟨t, rfl, ht⟩
      · cases h
  · rintro ⟨t, rfl, ht⟩
    rw [close, if_pos ht]

/-- A factor within a factor has one parenthesis or negation less to open, so the induction
is on their number. -/
theorem sound_factor (stop depth : Nat) : Sound (factor stop depth) .factor depth := by
  induction depth using Nat.strongRecOn with
  | ind depth ih =>
    intro ts e rest h
    cases ts with
    | nil =>
      rw [factor_nil] at h
      cases h
    | cons t ts =>
      cases ht : t.kind with
      | lit b =>
        rw [factor_constant ht] at h
        cases h
        exact ⟨[t], _, rfl, ends_factor _, by simpa [ht] using fits_constant b depth, rfl⟩
      | var x =>
        rw [factor_name ht] at h
        cases h
        exact ⟨[t], _, rfl, ends_factor _, by simpa [ht] using fits_name x depth, rfl⟩
      | not =>
        cases depth with
        | zero =>
          rw [factor_tooDeep (.inl ht)] at h
          cases h
        | succ depth =>
          simp only [factor_not ht, bind_eq_ok_iff, pure_eq_ok_iff] at h
          obtain ⟨⟨e, rest'⟩, hinner, heq⟩ := h
          cases heq
          obtain ⟨us, q, rfl, -, hq, rfl⟩ := ih depth (Nat.lt_succ_self _) _ _ _ hinner
          exact ⟨t :: us, _, rfl, ends_factor _, by simpa [ht] using hq.not, rfl⟩
      | opening =>
        cases depth with
        | zero =>
          rw [factor_tooDeep (.inr ht)] at h
          cases h
        | succ depth =>
          simp only [factor_group ht, bind_eq_ok_iff, pure_eq_ok_iff, close_eq_ok_iff] at h
          obtain ⟨⟨e, later⟩, hinner, rest', ⟨c, rfl, hc⟩, heq⟩ := h
          cases heq
          have hsound := sound_disjunction (ih depth (Nat.lt_succ_self _))
          obtain ⟨us, q, rfl, -, hq, rfl⟩ := hsound _ _ _ hinner
          exact ⟨t :: (us ++ [c]), ⟨.opening :: (q.tokens ++ [.closing]), q.tree, q.nesting + 1⟩,
            by simp, ends_factor _, by simpa [ht, hc] using hq.group, rfl⟩
      | and | or | closing | other =>
        rw [factor_noOperand (by simp [ht])] at h
        cases h

theorem sound_phrase (stop depth : Nat) (p : Phrase) : Sound (phrase stop depth p) p depth := by
  match p with
  | .factor => exact sound_factor stop depth
  | .chain .and => exact sound_chain .and (sound_factor stop depth)
  | .chain .or => exact sound_disjunction (sound_factor stop depth)

/-! ### What is derived is accepted, or too deep -/

/-- The result of reading something that opens `n` parentheses and negations at once where
`depth` are available. -/
structure Within {α : Type} (n depth : Nat) (a : α) (r : Except ExprError α) : Prop where
  ok : n ≤ depth → r = .ok a
  tooDeep : depth < n → ∃ position, r = .error (.badSyntax position .tooDeep)

namespace Within

variable {α β : Type} {m n : Nat} {a : α} {b : β} {r : Except ExprError α}

theorem of_eq_ok (h : r = .ok a) : Within 0 depth a r where
  ok _ := h
  tooDeep hlt := absurd hlt (Nat.not_lt_zero _)

/-- What follows is read with the same number available. -/
theorem bind {f : α → Except ExprError β} (h : Within m depth a r) (hf : Within n depth b (f a)) :
    Within (max m n) depth b (r >>= f) where
  ok hle := by
    rw [h.ok (Nat.le_trans (Nat.le_max_left m n) hle)]
    exact hf.ok (Nat.le_trans (Nat.le_max_right m n) hle)
  tooDeep hlt := by
    rcases Nat.lt_or_ge depth m with hm | hm
    · obtain ⟨position, he⟩ := h.tooDeep hm
      exact ⟨position, by rw [he]; rfl⟩
    · rw [h.ok hm]
      exact hf.tooDeep (by omega)

theorem bind_ok {f : α → Except ExprError β} (h : Within n depth a r) (hf : f a = .ok b) :
    Within n depth b (r >>= f) := by
  have hzero : Within 0 depth b (f a) := of_eq_ok hf
  have hbind := h.bind hzero
  rwa [Nat.max_zero] at hbind

/-- One more is opened around it, and one more is available. -/
theorem succ (h : Within n depth a r) : Within (n + 1) (depth + 1) a r where
  ok hle := h.ok (Nat.le_of_succ_le_succ hle)
  tooDeep hlt := h.tooDeep (Nat.lt_of_succ_lt_succ hlt)

theorem of_tooDeep (h : ∃ position, r = .error (.badSyntax position .tooDeep)) :
    Within (n + 1) 0 a r where
  ok hle := absurd hle (Nat.not_succ_le_zero n)
  tooDeep _ := h

theorem eq_ok_iff (h : Within n depth a r) {c : α} : r = .ok c ↔ n ≤ depth ∧ c = a := by
  constructor
  · intro hr
    rcases Nat.lt_or_ge depth n with hlt | hle
    · obtain ⟨position, he⟩ := h.tooDeep hlt
      rw [he] at hr
      cases hr
    · rw [h.ok hle] at hr
      exact ⟨hle, (Except.ok.inj hr).symm⟩
  · rintro ⟨hle, rfl⟩
    exact h.ok hle

end Within

/-- The reader finds this phrase before everything that does not carry it on. -/
def Reads (item : Reader) (p : Phrase) (depth : Nat) (q : Reading) : Prop :=
  ∀ us rest, us.map Token.kind = q.tokens → Ends p rest →
    Within q.nesting depth (q.tree, rest) (item (us ++ rest))

/-- Operands after the first one are read up to the end of the chain. -/
theorem reads_more {qs : List Reading} (h : ∀ q ∈ qs, Reads item (.operand op) depth q)
    {us rest : List Token} (hus : us.map Token.kind = qs.flatMap fun q => op.token :: q.tokens)
    (hrest : Ends (.chain op) rest) {bound : Nat} (hbound : us.length ≤ bound) :
    Within (Reading.deepest qs) depth (qs.map Reading.tree, rest)
      (more op.token item bound (us ++ rest)) := by
  induction qs generalizing us bound with
  | nil =>
    obtain rfl : us = [] := by simpa using hus
    apply Within.of_eq_ok
    cases bound with
    | zero => rfl
    | succ bound =>
      cases rest with
      | nil => rfl
      | cons t ts =>
        have ht : t.kind ≠ op.token := hrest op (Phrase.mem_continuers_chain op) t rfl
        simp [more, ht]
  | cons q qs ih =>
    obtain ⟨hq, hqs⟩ := List.forall_mem_cons.1 h
    cases us with
    | nil => simp at hus
    | cons t us =>
      rw [List.flatMap_cons, List.cons_append, List.map_cons, List.cons.injEq,
        List.map_eq_append_iff] at hus
      obtain ⟨ht, vs, ws, rfl, hvs, hws⟩ := hus
      have hlen : vs.length + ws.length + 1 ≤ bound := by simpa using hbound
      obtain ⟨bound, rfl⟩ := Nat.exists_eq_add_of_le' (Nat.le_trans (Nat.le_add_left 1 _) hlen)
      simp only [List.cons_append, List.append_assoc, more, ht, if_true]
      refine (hq vs (ws ++ rest) hvs (hrest.before_operands hws)).bind ?_
      exact (ih hqs hws (by omega)).bind_ok rfl

theorem reads_chain {qs : List Reading} (hq : Reads item (.operand op) depth q)
    (hqs : ∀ r ∈ qs, Reads item (.operand op) depth r) :
    Reads (chain op.token op item) (.chain op) depth (.chain op q qs) := by
  intro us rest hus hrest
  obtain ⟨vs, ws, rfl, hvs, hws⟩ := List.map_eq_append_iff.1 hus
  rw [List.append_assoc]
  refine (hq vs (ws ++ rest) hvs (hrest.before_operands hws)).bind ?_
  exact (reads_more hqs hws hrest (by simp)).bind_ok rfl

/-- Every derived phrase is read, if its nesting is available. -/
theorem reads_phrase (h : Derives p q) (stop depth : Nat) :
    Reads (phrase stop depth p) p depth q := by
  induction h generalizing depth with
  | constant b =>
    intro us rest hus _
    obtain ⟨t, rfl, ht⟩ : ∃ t, us = [t] ∧ t.kind = .lit b := by simpa using hus
    exact .of_eq_ok (factor_constant ht)
  | name x =>
    intro us rest hus _
    obtain ⟨t, rfl, ht⟩ : ∃ t, us = [t] ∧ t.kind = .var x := by simpa using hus
    exact .of_eq_ok (factor_name ht)
  | not _ ih =>
    intro us rest hus _
    obtain ⟨t, us, rfl, ht, hus⟩ := List.map_eq_cons_iff.1 hus
    cases depth with
    | zero => exact .of_tooDeep ⟨t.position, factor_tooDeep (.inl ht)⟩
    | succ depth =>
      rw [List.cons_append, phrase, factor_not ht]
      apply Within.succ
      exact (ih depth us rest hus (ends_factor rest)).bind_ok rfl
  | group _ ih =>
    intro us rest hus _
    obtain ⟨t, us, rfl, ht, hus⟩ := List.map_eq_cons_iff.1 hus
    obtain ⟨vs, cs, rfl, hvs, hcs⟩ := List.map_eq_append_iff.1 hus
    obtain ⟨c, rfl, hc⟩ : ∃ c, cs = [c] ∧ c.kind = .closing := by simpa using hcs
    cases depth with
    | zero => exact .of_tooDeep ⟨t.position, factor_tooDeep (.inr ht)⟩
    | succ depth =>
      rw [List.cons_append, List.append_assoc, phrase, factor_group ht]
      apply Within.succ
      refine (ih depth vs ([c] ++ rest) hvs (ends_cons_of_closing hc)).bind_ok ?_
      have hclose : close stop t.position ([c] ++ rest) = .ok rest :=
        close_eq_ok_iff.2 ⟨c, rfl, hc⟩
      exact bind_eq_ok_iff.2 ⟨rest, hclose, rfl⟩
  | @chain op q qs _ _ ihq ihqs =>
    rw [phrase_chain]
    exact reads_chain (ihq depth) fun r hr => ihqs r hr depth

/-- A phrase is read exactly where it stands before something that does not carry it on. -/
theorem phrase_eq_ok_iff {ts rest : List Token} {e : Expr} :
    phrase stop depth p ts = .ok (e, rest) ↔ ∃ us q, ts = us ++ rest ∧ Ends p rest ∧
      Fits p depth q (us.map Token.kind) ∧ q.tree = e := by
  constructor
  · exact sound_phrase stop depth p ts e rest
  · rintro ⟨us, q, rfl, hends, hq, rfl⟩
    exact (reads_phrase hq.derives stop depth us rest hq.tokens_eq.symm hends).ok hq.nesting_le

/-- The tokens of a phrase alone are read as this phrase. -/
theorem within_phrase (h : Derives p q) {ts : List Token} (hts : ts.map Token.kind = q.tokens)
    (stop depth : Nat) : Within q.nesting depth (q.tree, []) (phrase stop depth p ts) := by
  have hread := reads_phrase h stop depth ts [] hts ends_nil
  rwa [List.append_nil] at hread

end Parser

/-! ### Texts -/

open Moore.Parser

variable {p : Phrase} {q q' : Reading} {ts : List Token} {stop : Nat}

/-- Derived tokens are read as a whole, or are nested too deeply. -/
theorem within_parseTokens (h : Derives (.chain .or) q) (hts : ts.map Token.kind = q.tokens) :
    Within q.nesting maxNesting q.tree (parseTokens stop ts) := by
  have hne : ts.isEmpty = false := by
    cases ts with
    | nil => exact absurd hts.symm h.tokens_ne_nil
    | cons t ts => rfl
  simp only [parseTokens, hne]
  exact (within_phrase h hts stop maxNesting).bind_ok rfl

/-- All tokens that are read as a whole are derived. -/
theorem derives_of_parseTokens {e : Expr} (h : parseTokens stop ts = .ok e) :
    ∃ q, Derives (.chain .or) q ∧ q.tokens = ts.map Token.kind ∧ q.nesting ≤ maxNesting ∧
      q.tree = e := by
  cases ts with
  | nil => cases h
  | cons t ts =>
    simp only [parseTokens, List.isEmpty_cons] at h
    obtain ⟨⟨e', rest⟩, hread, h⟩ := bind_eq_ok_iff.1 h
    cases rest with
    | cons t' ts' => cases h
    | nil =>
      cases h
      obtain ⟨us, q, hus, -, hq, rfl⟩ :=
        sound_disjunction (sound_factor stop maxNesting) _ _ _ hread
      rw [List.append_nil] at hus
      exact ⟨q, hq.derives, by rw [hus, hq.tokens_eq], hq.nesting_le, rfl⟩

/-- Tokens that are derived in two ways are read where either way fits, so neither way is
nested deeper than the other. -/
theorem Derives.le_of_tokens_eq (h : Derives p q) (h' : Derives p q')
    (ht : q.tokens = q'.tokens) : q.nesting ≤ q'.nesting ∧ q.tree = q'.tree := by
  obtain ⟨ts, hts⟩ : ∃ ts : List Token, ts.map Token.kind = q.tokens :=
    ⟨q.tokens.map fun k => ⟨k, 0, []⟩, by simp [Function.comp_def]⟩
  have hread := within_phrase h hts 0 q'.nesting
  have hread' := within_phrase h' (hts.trans ht) 0 q'.nesting
  obtain ⟨hle, heq⟩ := hread.eq_ok_iff.1 (hread'.ok (Nat.le_refl _))
  exact ⟨hle, (congrArg Prod.fst heq).symm⟩

/-- The grammar is unambiguous: tokens have one tree and one nesting. -/
theorem Derives.unique (h : Derives p q) (h' : Derives p q') (ht : q.tokens = q'.tokens) :
    q = q' := by
  obtain ⟨hle, htree⟩ := h.le_of_tokens_eq h' ht
  obtain ⟨hle', -⟩ := h'.le_of_tokens_eq h ht.symm
  exact Reading.ext ht htree (Nat.le_antisymm hle hle')

/-- The text spells the tokens of a disjunction. -/
structure ReadsAs (text : String) (q : Reading) : Prop where
  lexes : Lexes text.toList q.tokens
  derives : Derives (.chain .or) q

/-- A text has one reading at most. -/
theorem ReadsAs.unique {text : String} (h : ReadsAs text q) (h' : ReadsAs text q') : q = q' :=
  h.derives.unique h'.derives ((lexes_iff.1 h.lexes).1.symm.trans (lexes_iff.1 h'.lexes).1)

/-- A text that has a reading is parsed, or is nested too deeply. -/
theorem within_parse {text : String} (h : ReadsAs text q) :
    Within q.nesting maxNesting q.tree (Expr.parse text) :=
  within_parseTokens h.derives (lexes_iff.1 h.lexes).1

theorem parse_eq_ok_iff {text : String} {e : Expr} :
    Expr.parse text = .ok e ↔ ∃ q, ReadsAs text q ∧ q.nesting ≤ maxNesting ∧ q.tree = e := by
  constructor
  · intro h
    obtain ⟨q, hq, htokens, hle, rfl⟩ := derives_of_parseTokens h
    exact ⟨q, ⟨lexes_iff.2 ⟨htokens.symm, hq.other_not_mem⟩, hq⟩, hle, rfl⟩
  · rintro ⟨q, hq, hle, rfl⟩
    exact (within_parse hq).ok hle

/-- Parsing decides the grammar.  A text is parsed to a tree exactly if it spells tokens
from which the grammar derives this tree with at most 256 parentheses and negations open at
once, and texts that spell the same tokens are parsed to the same tree or all refused. -/
theorem parse_decides_grammar :
    (∀ (text : String) (e : Expr), Expr.parse text = .ok e ↔
        ∃ q, ReadsAs text q ∧ q.nesting ≤ 256 ∧ q.tree = e) ∧
      (∀ (text text' : String) (ks : List TokenKind), Lexes text.toList ks →
        Lexes text'.toList ks → ∀ e, Expr.parse text = .ok e ↔ Expr.parse text' = .ok e) := by
  refine ⟨fun text e => parse_eq_ok_iff, fun text text' ks h h' e => ?_⟩
  have hlexes : ∀ q : Reading, Lexes text.toList q.tokens ↔ Lexes text'.toList q.tokens := by
    intro q
    rw [lexes_iff, lexes_iff, (lexes_iff.1 h).1, (lexes_iff.1 h').1]
  have hreads : ∀ q, ReadsAs text q ↔ ReadsAs text' q := fun q =>
    ⟨fun hq => ⟨(hlexes q).1 hq.lexes, hq.derives⟩, fun hq => ⟨(hlexes q).2 hq.lexes, hq.derives⟩⟩
  simp only [parse_eq_ok_iff, hreads]

/-- Words and marks spell the same operators. -/
theorem respelt_guard :
    let ks : List TokenKind := [.not, .var "a", .and, .lit true, .or, .var "b"]
    Lexes "NOT a and True,b".toList ks ∧ Lexes "!a&TRUE | b".toList ks ∧
      Expr.parse "NOT a and True,b" =
        .ok (.nary .or [.nary .and [.not (.var "a"), .lit true], .var "b"]) := by
  intro ks
  have hwords : Lexes "NOT a and True,b".toList ks := lexes_iff.2 (by decide)
  have hmarks : Lexes "!a&TRUE | b".toList ks := lexes_iff.2 (by decide)
  refine ⟨hwords, hmarks, ?_⟩
  rw [parse_decides_grammar.2 _ _ ks hwords hmarks]
  rfl

end Moore
