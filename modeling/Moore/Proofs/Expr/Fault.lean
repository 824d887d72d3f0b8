import Moore.Proofs.Expr.Parser
import Moore.Proofs.Expr.Position

/-
# Where syntax errors point

The parser reads from left to right and fails at the first token that cannot be part of a
condition.  `Stuck` says this for a phrase: the tokens in front of the error begin a phrase,
and no reader gets past them and a token of the same kind as the next one.  Wherever the
reader of a phrase fails, it is stuck (`blames_phrase`).

What completes the tokens in front of an error is an operand, if one is wanted, and a
closing parenthesis for each one that is open.  So it is a text of its own, which can be put
after the characters in front of the error (`BeginsPhrase`), and it needs no more nesting
than they have.

With the positions of tokens this says where in the text an error points
(`syntax_error_at_first_offence`).
-/

namespace Moore

/-! ### Beginnings of phrases -/

/-- Some text put after the tokens gives tokens with the property.  A word may stand right
before this text. -/
def Begins (P : List TokenKind → Prop) (ks : List TokenKind) : Prop :=
  ∃ cs ls, Apart cs ∧ Lexes cs ls ∧ P (ks ++ ls)

/-- The tokens begin a phrase nested no deeper than `depth`. -/
def BeginsPhrase (p : Phrase) (depth : Nat) : List TokenKind → Prop :=
  Begins fun ks => ∃ q, Fits p depth q ks

/-- The tokens begin further operands of a chain. -/
def BeginsTail (op : Connective) (depth : Nat) : List TokenKind → Prop :=
  Begins fun ks => ∃ qs, FitsTail op depth qs ks

section Begins

variable {op : Connective} {p : Phrase} {depth : Nat} {q : Reading} {ks ls : List TokenKind}

/-- A name makes an operand of nothing. -/
theorem beginsPhrase_nil (depth : Nat) : BeginsPhrase .factor depth [] := by
  have hname : Lexes " a".toList [.var "a"] := lexes_iff.2 (by decide)
  exact ⟨" a".toList, [.var "a"], apart_cons.2 (by decide), hname, _, fits_name "a" depth⟩

theorem Fits.begins (h : Fits p depth q ks) : BeginsPhrase p depth ks :=
  ⟨[], [], apart_nil, .nil, q, by rwa [List.append_nil]⟩

namespace BeginsPhrase

theorem not (h : BeginsPhrase .factor depth ks) :
    BeginsPhrase .factor (depth + 1) (.not :: ks) := by
  obtain ⟨cs, ls, ha, hls, q, hq⟩ := h
  exact ⟨cs, ls, ha, hls, _, hq.not⟩

theorem group (h : BeginsPhrase (.chain .or) depth ks) :
    BeginsPhrase .factor (depth + 1) (.opening :: ks) := by
  obtain ⟨cs, ls, ha, hls, q, hq⟩ := h
  have hclosing : Apart [')'] := apart_cons.2 (by decide)
  have hlexes : Lexes (cs ++ [')']) (ls ++ [.closing]) :=
    hls.append (.mark .closing .nil) hclosing
  exact ⟨_, _, ha.append hclosing, hlexes, _, by simpa using hq.group⟩

theorem chain (h : BeginsPhrase (.operand op) depth ks) : BeginsPhrase (.chain op) depth ks := by
  obtain ⟨cs, ls, ha, hls, q, hq⟩ := h
  exact ⟨cs, ls, ha, hls, _, by simpa using hq.chain (fitsTail_nil op depth)⟩

theorem tail (h : BeginsPhrase (.operand op) depth ks) : BeginsTail op depth (op.token :: ks) := by
  obtain ⟨cs, ls, ha, hls, q, hq⟩ := h
  exact ⟨cs, ls, ha, hls, [q], by simpa using (fitsTail_nil op depth).cons hq⟩

end BeginsPhrase

namespace BeginsTail

theorem cons (h : BeginsTail op depth ls) (hq : Fits (.operand op) depth q ks) :
    BeginsTail op depth (op.token :: (ks ++ ls)) := by
  obtain ⟨cs, ls', ha, hls, qs, hqs⟩ := h
  exact ⟨cs, ls', ha, hls, q :: qs, by simpa using hqs.cons hq⟩

theorem chain (h : BeginsTail op depth ls) (hq : Fits (.operand op) depth q ks) :
    BeginsPhrase (.chain op) depth (ks ++ ls) := by
  obtain ⟨cs, ls', ha, hls, qs, hqs⟩ := h
  exact ⟨cs, ls', ha, hls, _, by simpa using hq.chain hqs⟩

end BeginsTail

end Begins

namespace Parser

variable {op : Connective} {p : Phrase} {depth stop : Nat} {q : Reading} {t : Token}
  {us vs rest ts ts' : List Token} {err : ExprError}

/-! ### Agreement up to a token -/

/-- The kind of the first token. -/
def next (ts : List Token) : Option TokenKind :=
  ts.head?.map Token.kind

theorem next_eq_some_iff {k : TokenKind} :
    next ts = some k ↔ ∃ t rest, ts = t :: rest ∧ t.kind = k := by
  cases ts <;> simp [next]

theorem next_eq_none_iff : next ts = none ↔ ts = [] := by
  cases ts <;> simp [next]

theorem ends_iff : Ends p ts ↔ ∀ op ∈ p.continuers, next ts ≠ some op.token := by
  cases ts <;> simp [Ends, next]

/-- What ends a phrase shows at the first token. -/
theorem Ends.congr (h : Ends p ts) (hnext : next ts' = next ts) : Ends p ts' := by
  rw [ends_iff, hnext]
  exact ends_iff.1 h

/-- A reader fails on all tokens that agree with `us` and then with the first token of
`rest`. -/
def Refuses {α : Type} (read : List Token → Except ExprError α) (us rest : List Token) : Prop :=
  ∀ us' rest', us'.map Token.kind = us.map Token.kind → next rest' = next rest →
    ∃ err, read (us' ++ rest') = .error err

/-! ### Ways to be stuck -/

/-- The reader of a phrase gets as far as `rest` and no further, in a text of any length. -/
structure Stuck (p : Phrase) (depth : Nat) (us rest : List Token) : Prop where
  begins : BeginsPhrase p depth (us.map Token.kind)
  refuses : ∀ stop, Refuses (phrase stop depth p) us rest

/-- The same of a reader of further operands that has found an operator at least.  The bound
that it is given exceeds the number of tokens by that of the operands before. -/
structure StuckTail (op : Connective) (depth : Nat) (us rest : List Token) : Prop where
  begins : BeginsTail op depth (us.map Token.kind)
  head : ∃ ks, us.map Token.kind = op.token :: ks
  refuses : ∀ stop spare, Refuses
    (fun ts => more op.token (phrase stop depth (.operand op)) (ts.length + spare) ts) us rest

/-- No factor begins here. -/
theorem stuck_nil (h : ∀ stop rest', next rest' = next rest →
    ∃ err, factor stop depth rest' = .error err) : Stuck .factor depth [] rest where
  begins := beginsPhrase_nil depth
  refuses stop us' rest' hus hnext := by
    obtain rfl : us' = [] := by simpa using hus
    exact h stop rest' hnext

namespace Stuck

theorem not (h : Stuck .factor depth us rest) (ht : t.kind = .not) :
    Stuck .factor (depth + 1) (t :: us) rest where
  begins := by
    rw [List.map_cons, ht]
    exact h.begins.not
  refuses stop us' rest' hus hnext := by
    obtain ⟨t', us', rfl, ht', hus⟩ := List.map_eq_cons_iff.1 hus
    obtain ⟨err, herr⟩ := h.refuses stop us' rest' hus hnext
    rw [phrase, List.cons_append, factor_not (ht'.trans ht)]
    exact ⟨err, bind_eq_error_iff.2 (.inl herr)⟩

theorem group (h : Stuck (.chain .or) depth us rest) (ht : t.kind = .opening) :
    Stuck .factor (depth + 1) (t :: us) rest where
  begins := by
    rw [List.map_cons, ht]
    exact h.begins.group
  refuses stop us' rest' hus hnext := by
    obtain ⟨t', us', rfl, ht', hus⟩ := List.map_eq_cons_iff.1 hus
    obtain ⟨err, herr⟩ := h.refuses stop us' rest' hus hnext
    rw [phrase, List.cons_append, factor_group (ht'.trans ht)]
    exact ⟨err, bind_eq_error_iff.2 (.inl herr)⟩

/-- The first operand of a chain. -/
theorem chain (h : Stuck (.operand op) depth us rest) : Stuck (.chain op) depth us rest where
  begins := h.begins.chain
  refuses stop us' rest' hus hnext := by
    obtain ⟨err, herr⟩ := h.refuses stop us' rest' hus hnext
    rw [phrase_chain]
    exact ⟨err, bind_eq_error_iff.2 (.inl herr)⟩

/-- The operand after an operator. -/
theorem tail (h : Stuck (.operand op) depth us rest) (ht : t.kind = op.token) :
    StuckTail op depth (t :: us) rest where
  begins := by
    rw [List.map_cons, ht]
    exact h.begins.tail
  head := ⟨_, by rw [List.map_cons, ht]⟩
  refuses stop spare us' rest' hus hnext := by
    obtain ⟨t', us', rfl, ht', hus⟩ := List.map_eq_cons_iff.1 hus
    obtain ⟨err, herr⟩ := h.refuses stop us' rest' hus hnext
    simp only [List.cons_append, List.length_cons, Nat.succ_add, more, ht'.trans ht, if_true]
    exact ⟨err, bind_eq_error_iff.2 (.inl herr)⟩

end Stuck

theorem close_eq_error_iff {opening : Nat} : close stop opening ts = .error err ↔
    next ts ≠ some .closing ∧ err = .badSyntax (Token.start stop ts) (.unclosed opening) := by
  cases ts with
  | nil => simp [close, next, Token.start, @eq_comm _ err]
  | cons t ts =>
    by_cases ht : t.kind = .closing
    · simp [close, next, ht]
    · simp [close, next, ht, Token.start, @eq_comm _ err]

/-- The disjunction in parentheses is over, and they are not closed. -/
theorem stuck_unclosed (h : Fits (.chain .or) depth q (us.map Token.kind))
    (hends : Ends (.chain .or) rest) (hrest : next rest ≠ some .closing) (ht : t.kind = .opening) :
    Stuck .factor (depth + 1) (t :: us) rest where
  begins := by
    rw [List.map_cons, ht]
    exact h.begins.group
  refuses stop us' rest' hus hnext := by
    obtain ⟨t', us', rfl, ht', hus⟩ := List.map_eq_cons_iff.1 hus
    have hread : phrase stop depth (.chain .or) (us' ++ rest') = .ok (q.tree, rest') :=
      phrase_eq_ok_iff.2 ⟨us', q, rfl, hends.congr hnext, hus ▸ h, rfl⟩
    have hclose : close stop t'.position rest' =
        .error (.badSyntax (Token.start stop rest') (.unclosed t'.position)) :=
      close_eq_error_iff.2 ⟨hnext ▸ hrest, rfl⟩
    rw [phrase, List.cons_append, factor_group (ht'.trans ht)]
    exact ⟨_, bind_eq_error_iff.2 (.inr ⟨_, hread, bind_eq_error_iff.2 (.inl hclose)⟩)⟩

namespace StuckTail

/-- The tail of a chain starts with an operator, so an operand ends before it. -/
theorem ends (h : StuckTail op depth us rest) {us' : List Token}
    (hus : us'.map Token.kind = us.map Token.kind) (rest' : List Token) :
    Ends (.operand op) (us' ++ rest') := by
  obtain ⟨ks, hks⟩ := h.head
  obtain ⟨t', us', rfl, ht', -⟩ := List.map_eq_cons_iff.1 (hus.trans hks)
  exact ends_operand_cons ht'

/-- One operand is read, and a further one is not. -/
theorem cons (h : StuckTail op depth vs rest) (hq : Fits (.operand op) depth q (us.map Token.kind))
    (ht : t.kind = op.token) : StuckTail op depth (t :: (us ++ vs)) rest where
  begins := by
    rw [List.map_cons, List.map_append, ht]
    exact h.begins.cons hq
  head := ⟨_, by rw [List.map_cons, ht]⟩
  refuses stop spare us' rest' hus hnext := by
    obtain ⟨t', us', rfl, ht', hus⟩ := List.map_eq_cons_iff.1 hus
    rw [List.map_append] at hus
    obtain ⟨us', vs', rfl, hus, hvs⟩ := List.map_eq_append_iff.1 hus
    have hread : phrase stop depth (.operand op) (us' ++ (vs' ++ rest')) =
        .ok (q.tree, vs' ++ rest') :=
      phrase_eq_ok_iff.2 ⟨us', q, rfl, h.ends hvs rest', hus ▸ hq, rfl⟩
    have hbound : (us' ++ (vs' ++ rest')).length + spare =
        (vs' ++ rest').length + (us'.length + spare) := by
      rw [List.length_append]
      omega
    obtain ⟨err, herr⟩ := h.refuses stop (us'.length + spare) vs' rest' hvs hnext
    simp only [List.cons_append, List.append_assoc, List.length_cons, Nat.succ_add, more,
      ht'.trans ht, if_true]
    rw [hbound]
    exact ⟨err, bind_eq_error_iff.2 (.inr ⟨_, hread, bind_eq_error_iff.2 (.inl herr)⟩)⟩

/-- The first operand is read, and a further one is not. -/
theorem chain (h : StuckTail op depth vs rest)
    (hq : Fits (.operand op) depth q (us.map Token.kind)) :
    Stuck (.chain op) depth (us ++ vs) rest where
  begins := by
    rw [List.map_append]
    exact h.begins.chain hq
  refuses stop us' rest' hus hnext := by
    rw [List.map_append] at hus
    obtain ⟨us', vs', rfl, hus, hvs⟩ := List.map_eq_append_iff.1 hus
    have hread : phrase stop depth (.operand op) (us' ++ (vs' ++ rest')) =
        .ok (q.tree, vs' ++ rest') :=
      phrase_eq_ok_iff.2 ⟨us', q, rfl, h.ends hvs rest', hus ▸ hq, rfl⟩
    obtain ⟨err, herr⟩ := h.refuses stop 0 vs' rest' hvs hnext
    rw [phrase_chain, List.append_assoc]
    exact ⟨err, bind_eq_error_iff.2 (.inr ⟨_, hread, bind_eq_error_iff.2 (.inl herr)⟩)⟩

end StuckTail

/-! ### A reader that fails is stuck -/

/-- Where the reader of a phrase fails, it is stuck, and this is where the error points. -/
def Blames (stop depth : Nat) (p : Phrase) : Prop :=
  ∀ ts err, phrase stop depth p ts = .error err → ∃ us rest fault, ts = us ++ rest ∧
    err = .badSyntax (Token.start stop rest) fault ∧ Stuck p depth us rest

/-- The operands that are read after the first one. -/
theorem blames_more (h : Blames stop depth (.operand op)) {bound : Nat}
    (hts : more op.token (phrase stop depth (.operand op)) bound ts = .error err) :
    ∃ us rest fault, ts = us ++ rest ∧ err = .badSyntax (Token.start stop rest) fault ∧
      StuckTail op depth us rest := by
  induction bound generalizing ts with
  | zero => cases hts
  | succ bound ih =>
    cases ts with
    | nil => cases hts
    | cons t ts =>
      rw [more] at hts
      split at hts
      · next ht =>
        rcases bind_eq_error_iff.1 hts with hitem | ⟨⟨e, later⟩, hitem, hlater⟩
        · obtain ⟨us, rest, fault, rfl, rfl, hstuck⟩ := h _ _ hitem
          exact ⟨t :: us, rest, fault, rfl, rfl, hstuck.tail ht⟩
        · obtain ⟨us, q, rfl, -, hq, rfl⟩ := phrase_eq_ok_iff.1 hitem
          rcases bind_eq_error_iff.1 hlater with hmore | ⟨_, -, hpure⟩
          · obtain ⟨vs, rest, fault, rfl, rfl, hstuck⟩ := ih hmore
            exact ⟨t :: (us ++ vs), rest, fault, by simp, rfl, hstuck.cons hq ht⟩
          · cases hpure
      · cases hts

theorem blames_chain (op : Connective) (h : Blames stop depth (.operand op)) :
    Blames stop depth (.chain op) := by
  intro ts err hts
  rw [phrase_chain] at hts
  rcases bind_eq_error_iff.1 hts with hitem | ⟨⟨e, later⟩, hitem, hlater⟩
  · obtain ⟨us, rest, fault, rfl, rfl, hstuck⟩ := h _ _ hitem
    exact ⟨us, rest, fault, rfl, rfl, hstuck.chain⟩
  · obtain ⟨us, q, rfl, -, hq, rfl⟩ := phrase_eq_ok_iff.1 hitem
    rcases bind_eq_error_iff.1 hlater with hmore | ⟨_, -, hpure⟩
    · obtain ⟨vs, rest, fault, rfl, rfl, hstuck⟩ := blames_more h hmore
      exact ⟨us ++ vs, rest, fault, by rw [List.append_assoc], rfl, hstuck.chain hq⟩
    · cases hpure

/-- No factor begins with a token of this kind. -/
theorem blames_head {fault : Token → SyntaxFault}
    (hfail : ∀ stop t' ts', t'.kind = t.kind →
      factor stop depth (t' :: ts') = .error (.badSyntax t'.position (fault t')))
    (h : factor stop depth (t :: ts) = .error err) :
    ∃ us rest fault, t :: ts = us ++ rest ∧
      err = .badSyntax (Token.start stop rest) fault ∧ Stuck .factor depth us rest := by
  rw [hfail stop t ts rfl] at h
  cases h
  refine ⟨[], t :: ts, fault t, rfl, rfl, stuck_nil fun stop' rest' hnext => ?_⟩
  obtain ⟨t', ts', rfl, ht'⟩ := next_eq_some_iff.1 hnext
  exact ⟨_, hfail stop' t' ts' ht'⟩

/-- As in `sound_factor`, the induction is on the number of parentheses and negations that
are available. -/
theorem blames_factor (stop depth : Nat) : Blames stop depth .factor := by
  induction depth using Nat.strongRecOn with
  | ind depth ih =>
    intro ts err h
    rw [phrase] at h
    cases ts with
    | nil =>
      rw [factor_nil] at h
      cases h
      refine ⟨[], [], .unexpectedEnd, rfl, rfl, stuck_nil fun stop' rest' hnext => ?_⟩
      obtain rfl := next_eq_none_iff.1 hnext
      exact ⟨_, factor_nil⟩
    | cons t ts =>
      cases ht : t.kind with
      | lit b =>
        rw [factor_constant ht] at h
        cases h
      | var x =>
        rw [factor_name ht] at h
        cases h
      | not =>
        cases depth with
        | zero =>
          exact blames_head (fun _ _ _ ht' => factor_tooDeep (.inl (ht'.trans ht))) h
        | succ depth =>
          rw [factor_not ht] at h
          rcases bind_eq_error_iff.1 h with hinner | ⟨_, -, hpure⟩
          · obtain ⟨us, rest, fault, rfl, rfl, hstuck⟩ := ih depth (Nat.lt_succ_self _) _ _ hinner
            exact ⟨t :: us, rest, fault, rfl, rfl, hstuck.not ht⟩
          · cases hpure
      | opening =>
        cases depth with
        | zero =>
          exact blames_head (fun _ _ _ ht' => factor_tooDeep (.inr (ht'.trans ht))) h
        | succ depth =>
          have hblames : Blames stop depth (.chain .or) :=
            blames_chain .or (blames_chain .and (ih depth (Nat.lt_succ_self _)))
          rw [factor_group ht] at h
          rcases bind_eq_error_iff.1 h with hinner | ⟨⟨e, later⟩, hinner, hlater⟩
          · obtain ⟨us, rest, fault, rfl, rfl, hstuck⟩ := hblames _ _ hinner
            exact ⟨t :: us, rest, fault, rfl, rfl, hstuck.group ht⟩
          · obtain ⟨us, q, rfl, hends, hq, rfl⟩ :=
              (phrase_eq_ok_iff (p := .chain .or)).1 hinner
            rcases bind_eq_error_iff.1 hlater with hclose | ⟨_, -, hpure⟩
            · obtain ⟨hnext, rfl⟩ := close_eq_error_iff.1 hclose
              exact ⟨t :: us, later, _, rfl, rfl, stuck_unclosed hq hends hnext ht⟩
            · cases hpure
      | and | or | closing | other =>
        exact blames_head
          (fun _ _ _ ht' => factor_noOperand (by simp [ht'.trans ht])) h

theorem blames_disjunction (stop depth : Nat) : Blames stop depth (.chain .or) :=
  blames_chain .or (blames_chain .and (blames_factor stop depth))

/-! ### Errors of texts -/

/-- A text cannot be read past these tokens: they begin a condition, and with one more token
of this kind they do not. -/
structure Offends (us rest : List Token) : Prop where
  begins : BeginsPhrase (.chain .or) maxNesting (us.map Token.kind)
  refuses : ∀ stop, Refuses (parseTokens stop) us rest

theorem parseTokens_eq_bind (hts : ts ≠ []) : parseTokens stop ts = (do
    let (e, rest) ← phrase stop maxNesting (.chain .or) ts
    match rest with
    | [] => return e
    | t :: _ => throw (.badSyntax t.position (leftOver t))) := by
  cases ts with
  | nil => exact absurd rfl hts
  | cons t ts => rfl

theorem offends_nil : Offends [] [] where
  begins := by
    have hfactor : BeginsPhrase (.operand .and) maxNesting [] := beginsPhrase_nil maxNesting
    have hconjunction : BeginsPhrase (.operand .or) maxNesting [] := hfactor.chain
    exact hconjunction.chain
  refuses stop us' rest' hus hnext := by
    obtain rfl : us' = [] := by simpa using hus
    obtain rfl := next_eq_none_iff.1 hnext
    exact ⟨_, rfl⟩

theorem Stuck.offends (h : Stuck (.chain .or) maxNesting us rest) : Offends us rest where
  begins := h.begins
  refuses stop us' rest' hus hnext := by
    by_cases hne : us' ++ rest' = []
    · exact ⟨.badSyntax 0 .emptyText, by rw [hne]; rfl⟩
    · obtain ⟨err, herr⟩ := h.refuses stop us' rest' hus hnext
      rw [parseTokens_eq_bind hne]
      exact ⟨err, bind_eq_error_iff.2 (.inl herr)⟩

/-- The condition is over, and the text is not. -/
theorem offends_leftOver (h : Fits (.chain .or) maxNesting q (us.map Token.kind))
    (hends : Ends (.chain .or) (t :: rest)) : Offends us (t :: rest) where
  begins := h.begins
  refuses stop us' rest' hus hnext := by
    obtain ⟨t', rest', rfl, -⟩ := next_eq_some_iff.1 hnext
    have hread : phrase stop maxNesting (.chain .or) (us' ++ t' :: rest') =
        .ok (q.tree, t' :: rest') :=
      phrase_eq_ok_iff.2 ⟨us', q, rfl, hends.congr hnext, hus ▸ h, rfl⟩
    rw [parseTokens_eq_bind (by simp)]
    exact ⟨_, bind_eq_error_iff.2 (.inr ⟨_, hread, rfl⟩)⟩

/-- An error points at the token that offends, or at the end.  In a blank text it points at
the beginning. -/
theorem parseTokens_eq_error (h : parseTokens stop ts = .error err) :
    ∃ us rest position fault, ts = us ++ rest ∧ err = .badSyntax position fault ∧
      (position = Token.start stop rest ∨ ts = [] ∧ position = 0) ∧ Offends us rest := by
  by_cases hne : ts = []
  · subst hne
    cases h
    exact ⟨[], [], 0, .emptyText, rfl, rfl, .inr ⟨rfl, rfl⟩, offends_nil⟩
  · rw [parseTokens_eq_bind hne] at h
    rcases bind_eq_error_iff.1 h with hread | ⟨⟨e, rest⟩, hread, hlater⟩
    · obtain ⟨us, rest, fault, rfl, rfl, hstuck⟩ := blames_disjunction _ _ _ _ hread
      exact ⟨us, rest, _, fault, rfl, rfl, .inl rfl, hstuck.offends⟩
    · obtain ⟨us, q, rfl, hends, hq, rfl⟩ := phrase_eq_ok_iff.1 hread
      cases rest with
      | nil => cases hlater
      | cons t rest =>
        cases hlater
        exact ⟨us, t :: rest, _, _, rfl, rfl, .inl rfl, offends_leftOver hq hends⟩

end Parser

open Moore.Parser

/-- Some condition begins with tokens of these kinds. -/
def Viable (ks : List TokenKind) : Prop :=
  ∃ s e, Expr.parse s = .ok e ∧ ks <+: (Token.ofText s).map Token.kind

theorem Viable.of_prefix {ks ls : List TokenKind} (h : Viable ls) (hks : ks <+: ls) :
    Viable ks := by
  obtain ⟨s, e, hparse, hls⟩ := h
  exact ⟨s, e, hparse, hks.trans hls⟩

/-- The characters in front of an error can be completed. -/
theorem exists_parse_eq_ok {us : List Token} {pre : List Char} {n : Nat}
    (h : BeginsPhrase (.chain .or) maxNesting (us.map Token.kind))
    (hspells : Token.Spells n pre us) :
    ∃ s e, Expr.parse (String.ofList pre ++ s) = .ok e ∧
      us.map Token.kind <+: (Token.ofText (String.ofList pre ++ s)).map Token.kind := by
  obtain ⟨cs, ls, ha, hls, q, hq⟩ := h
  have hother : .other ∉ us.map Token.kind ++ ls := hq.tokens_eq ▸ hq.derives.other_not_mem
  have hpre : Lexes pre (us.map Token.kind) :=
    hspells.lexes fun hmem => hother (List.mem_append_left _ hmem)
  have hlexes : Lexes (String.ofList pre ++ String.ofList cs).toList q.tokens := by
    rw [String.toList_append, String.toList_ofList, String.toList_ofList, hq.tokens_eq]
    exact hpre.append hls ha
  refine ⟨String.ofList cs, q.tree, ?_, ?_⟩
  · exact parse_eq_ok_iff.2 ⟨q, ⟨hlexes, hq.derives⟩, hq.nesting_le, rfl⟩
  · rw [(lexes_iff.1 hlexes).1, hq.tokens_eq]
    exact List.prefix_append _ _

/-- No condition goes on with a token that offends. -/
theorem Parser.Offends.not_viable {us rest : List Token} {t : Token}
    (h : Offends us (t :: rest)) : ¬ Viable ((us ++ [t]).map Token.kind) := by
  rintro ⟨s, e, hparse, ls, hls⟩
  rw [List.map_append, List.append_assoc] at hls
  obtain ⟨us', ts', hts, hus, hts'⟩ := List.map_eq_append_iff.1 hls.symm
  have hnext : next ts' = next (t :: rest) := by
    obtain ⟨t', rest', rfl, ht', -⟩ := List.map_eq_cons_iff.1 hts'
    exact congrArg some ht'
  obtain ⟨err, herr⟩ := h.refuses s.utf8ByteSize us' ts' hus hnext
  rw [Expr.parse, hts, herr] at hparse
  cases hparse

/-- Nor do later tokens make it one. -/
theorem Parser.Offends.not_viable_append {us vs rest : List Token} {t : Token}
    (h : Offends us (vs ++ t :: rest)) : ¬ Viable ((us ++ vs ++ [t]).map Token.kind) := by
  cases vs with
  | nil => simpa using h.not_viable
  | cons v vs =>
    intro hviable
    have hfront : us ++ [v] <+: us ++ v :: vs ++ [t] := by simp
    exact h.not_viable (hviable.of_prefix (hfront.map Token.kind))

/-- A text divided where an error points: the characters in front spell the tokens that come
before the one that offends. -/
structure DividedAt (text : String) (pre : List Char) (us rest : List Token) : Prop where
  text_eq : ∃ post, text = String.ofList pre ++ post
  tokens_eq : Token.ofText text = us ++ rest
  spells : Token.Spells 0 pre us
  size_eq : rest ≠ [] → byteSize pre = Token.start text.utf8ByteSize rest
  offends : Offends us rest

namespace DividedAt

variable {text : String} {pre : List Char} {us rest us' rest' : List Token} {t : Token}

theorem viable (h : DividedAt text pre us rest) : Viable (us.map Token.kind) := by
  obtain ⟨s, e, hparse, hfront⟩ := exists_parse_eq_ok h.offends.begins h.spells
  exact ⟨_, e, hparse, hfront⟩

/-- The tokens in front of the error are those up to which the tokens begin a condition. -/
theorem position_lt_iff (h : DividedAt text pre us rest)
    (ht : Token.ofText text = us' ++ t :: rest') :
    t.position < byteSize pre ↔ Viable ((us' ++ [t]).map Token.kind) := by
  by_cases hin : us' ++ [t] <+: us
  · -- one of the tokens in front
    have hmem : t ∈ us := hin.subset (List.mem_append_right us' (List.mem_singleton_self t))
    have hlt := h.spells.position_lt hmem
    rw [Nat.zero_add] at hlt
    exact iff_of_true hlt (h.viable.of_prefix (hin.map Token.kind))
  · -- the token that offends, or a later one
    have hsplit := h.tokens_eq.symm.trans ht
    obtain ⟨vs, rfl, rfl⟩ : ∃ vs, us' = us ++ vs ∧ rest = vs ++ t :: rest' := by
      rcases List.append_eq_append_iff.1 hsplit with ⟨vs, hus', hrest⟩ | ⟨ws, hus, htail⟩
      · exact ⟨vs, hus', hrest⟩
      · cases ws with
        | nil => exact ⟨[], by simpa using hus.symm, by simpa using htail.symm⟩
        | cons w ws =>
          obtain ⟨rfl, -⟩ := List.cons.inj htail
          exact absurd (by simp [hus]) hin
    have hsorted := (Token.spells_ofText text).pairwise_position
    rw [h.tokens_eq, List.pairwise_append] at hsorted
    have hle : byteSize pre ≤ t.position := h.size_eq (by simp) ▸ Token.start_le hsorted.2.1
    exact iff_of_false (Nat.not_lt.2 hle) h.offends.not_viable_append

end DividedAt

theorem exists_dividedAt {text : String} {err : ExprError} (h : Expr.parse text = .error err) :
    ∃ pre us rest fault, DividedAt text pre us rest ∧ err = .badSyntax (byteSize pre) fault := by
  obtain ⟨us, rest, position, fault, hts, rfl, hposition, hoffends⟩ := parseTokens_eq_error h
  have hspells := Token.spells_ofText text
  rw [hts] at hspells
  rcases hposition with rfl | ⟨hnil, rfl⟩
  · obtain ⟨pre, post, hcs, hstart, hus⟩ := hspells.divide
    rw [Nat.zero_add, Nat.zero_add, byteSize_toList] at hstart
    have htext : text = String.ofList pre ++ String.ofList post := by
      rw [← String.ofList_append, ← hcs, String.ofList_toList]
    exact ⟨pre, us, rest, fault, ⟨⟨_, htext⟩, hts, hus, fun _ => hstart.symm, hoffends⟩,
      by rw [hstart]⟩
  · obtain ⟨rfl, rfl⟩ := List.append_eq_nil_iff.1 (hts.symm.trans hnil)
    have htext : text = String.ofList [] ++ text := (String.empty_append).symm
    exact ⟨[], [], [], fault, ⟨⟨_, htext⟩, hts, .nil, by simp, hoffends⟩, rfl⟩

/-- A syntax error points at the first token that offends.  Every token stands at the byte
position that it is given, so no position falls inside a character.  Where a text is no
condition, the error is a syntax error at the position of a token, or at an end of the text,
and the characters in front of it can be completed to a condition.  The tokens in front of
it are exactly those up to which the tokens begin a condition. -/
theorem syntax_error_at_first_offence (text : String) :
    (∀ t ∈ Token.ofText text, ∃ pre post : String,
        text = pre ++ String.ofList t.spelling ++ post ∧ pre.utf8ByteSize = t.position) ∧
      ∀ err, Expr.parse text = .error err → ∃ position fault, err = .badSyntax position fault ∧
        position ≤ text.utf8ByteSize ∧ (String.Pos.Raw.mk position).IsValid text ∧
        (∃ pre post s e, text = pre ++ post ∧ pre.utf8ByteSize = position ∧
          Expr.parse (pre ++ s) = .ok e) ∧
        ∀ us t rest, Token.ofText text = us ++ t :: rest →
          (t.position < position ↔ Viable ((us ++ [t]).map Token.kind)) := by
  refine ⟨fun t ht => exists_spelling ht, fun err herr => ?_⟩
  obtain ⟨pre, us, rest, fault, hdivided, rfl⟩ := exists_dividedAt herr
  obtain ⟨post, htext⟩ := hdivided.text_eq
  obtain ⟨s, e, hparse, -⟩ := exists_parse_eq_ok hdivided.offends.begins hdivided.spells
  have hvalid : (String.Pos.Raw.mk (byteSize pre)).IsValid text :=
    String.Pos.Raw.isValid_iff_exists_append.2 ⟨String.ofList pre, post, htext, rfl⟩
  exact ⟨byteSize pre, fault, rfl, hvalid.le_rawEndPos, hvalid,
    ⟨String.ofList pre, post, s, e, htext, rfl, hparse⟩,
    fun us' t rest' ht => hdivided.position_lt_iff ht⟩

/-- A blank of three bytes and a letter of two. -/
theorem foreign_letter_located :
    Expr.parse "a\u2003& é" = .error (.badSyntax 6 (.unknownToken 'é')) ∧
      ∃ pre post s e, "a\u2003& é" = pre ++ post ∧ pre.utf8ByteSize = 6 ∧
        Expr.parse (pre ++ s) = .ok e := by
  have herr : Expr.parse "a\u2003& é" = .error (.badSyntax 6 (.unknownToken 'é')) := rfl
  obtain ⟨position, fault, heq, -, -, hfront, -⟩ :=
    (syntax_error_at_first_offence "a\u2003& é").2 _ herr
  cases heq
  exact ⟨herr, hfront⟩

end Moore
