import Moore.Expr.Token

/-
# Spellings of condition texts

What a condition text consists of, said without the scanner.  `Mark` and `Word` list the
ways to write each token; `Lexes` puts spellings and white space one after the other and
lets no word end before a character that would continue it.

The scanner finds these tokens and no others: `lexes_iff` says that a text is a sequence of
spellings exactly if the scanner meets no character without meaning, and then the tokens
are those that it returns.  White space and the choice among spellings are all that a text
has beyond its tokens.

`Spells` says of any text, characters without meaning included, where the scanner finds
which token (`spells_ofText`).
-/

namespace Moore

/-- The spellings of one character. -/
inductive Mark : TokenKind → Char → Prop where
  | bang : Mark .not '!'
  | tilde : Mark .not '~'
  | ampersand : Mark .and '&'
  | bar : Mark .or '|'
  | comma : Mark .or ','
  | opening : Mark .opening '('
  | closing : Mark .closing ')'

/-- The meaning of a whole word: constants and operators in any case of letters, and every
other word is a name. -/
inductive Word : TokenKind → String → Prop where
  | constTrue {w : String} : Text.sameWord w "true" = true → Word (.lit true) w
  | constFalse {w : String} : Text.sameWord w "false" = true → Word (.lit false) w
  | and {w : String} : Text.sameWord w "and" = true → Word .and w
  | or {w : String} : Text.sameWord w "or" = true → Word .or w
  | not {w : String} : Text.sameWord w "not" = true → Word .not w
  | name {w : String} : isReserved w = false → Word (.var w) w

/-- The characters of a word: a letter, then letters, digits and underscores. -/
def IsWord (w : List Char) : Prop :=
  ∃ c cs, w = c :: cs ∧ c.isAlpha = true ∧ ∀ d ∈ cs, isWordChar d = true

/-- No word goes on with these characters. -/
def Apart (cs : List Char) : Prop :=
  ∀ c ∈ cs.head?, isWordChar c = false

/-- The characters are spellings of the tokens, in order, with white space anywhere around
them.  A word takes all characters that could belong to it. -/
inductive Lexes : List Char → List TokenKind → Prop where
  | nil : Lexes [] []
  | blank {c : Char} {cs : List Char} {ks : List TokenKind} :
      Text.isBlank c = true → Lexes cs ks → Lexes (c :: cs) ks
  | mark {k : TokenKind} {c : Char} {cs : List Char} {ks : List TokenKind} :
      Mark k c → Lexes cs ks → Lexes (c :: cs) (k :: ks)
  | word {k : TokenKind} {w cs : List Char} {ks : List TokenKind} :
      IsWord w → Word k (String.ofList w) → Apart cs → Lexes cs ks → Lexes (w ++ cs) (k :: ks)

variable {c : Char} {w u cs cs' : List Char} {k : TokenKind} {ks ks' : List TokenKind}

/-! ### Classes of characters -/

theorem isWordChar_of_isAlpha (h : c.isAlpha = true) : isWordChar c = true := by
  simp [isWordChar, Char.isAlphanum, h]

/-- Word characters lie between `0` and `z`. -/
theorem toNat_of_isWordChar (h : isWordChar c = true) : 48 ≤ c.toNat ∧ c.toNat ≤ 122 := by
  unfold isWordChar Char.isAlphanum Char.isAlpha Char.isUpper Char.isLower Char.isDigit at h
  simp only [Bool.or_eq_true, Bool.and_eq_true, decide_eq_true_eq, ge_iff_le,
    UInt32.le_iff_toNat_le] at h
  rcases h with ((⟨hlo, hhi⟩ | ⟨hlo, hhi⟩) | ⟨hlo, hhi⟩) | rfl
  · exact ⟨Nat.le_trans (by decide) hlo, Nat.le_trans hhi (by decide)⟩
  · exact ⟨Nat.le_trans (by decide) hlo, Nat.le_trans hhi (by decide)⟩
  · exact ⟨Nat.le_trans (by decide) hlo, Nat.le_trans hhi (by decide)⟩
  · decide

/-- The characters of words are ASCII characters. -/
theorem utf8Size_of_isWordChar (h : isWordChar c = true) : c.utf8Size = 1 := by
  obtain ⟨-, hhi⟩ := toNat_of_isWordChar h
  exact Char.utf8Size_eq_one_iff.2 (UInt32.le_iff_toNat_le.2 (Nat.le_trans hhi (by decide)))

theorem isWordChar_of_isBlank (h : Text.isBlank c = true) : isWordChar c = false := by
  rw [Bool.eq_false_iff]
  intro hw
  obtain ⟨hlo, hhi⟩ := toNat_of_isWordChar hw
  simp [Text.isBlank, Text.blankRanges] at h
  omega

theorem isAlpha_of_not_isWordChar (h : isWordChar c = false) : c.isAlpha = false := by
  rw [Bool.eq_false_iff] at h ⊢
  exact fun ha => h (isWordChar_of_isAlpha ha)

/-! ### Marks -/

theorem Mark.isWordChar (h : Mark k c) : isWordChar c = false := by
  cases h <;> decide

theorem Mark.isBlank (h : Mark k c) : Text.isBlank c = false := by
  cases h <;> decide

/-- The scanner knows the marks, and gives every other character no meaning. -/
theorem mark_iff : Mark k c ↔ Token.markKind c = k ∧ k ≠ .other := by
  constructor
  · intro h
    cases h <;> exact ⟨rfl, by decide⟩
  · rintro ⟨rfl, hk⟩
    unfold Token.markKind at hk ⊢
    split at hk
    · exact .bang
    · exact .tilde
    · exact .ampersand
    · exact .bar
    · exact .comma
    · exact .opening
    · exact .closing
    · exact absurd rfl hk

/-! ### Words -/

theorem sameWord_comm (s t : String) : Text.sameWord s t = Text.sameWord t s := by
  simp [Text.sameWord, eq_comm]

/-- A word that is none of the five reserved ones. -/
theorem isReserved_eq_false_iff {x : String} : isReserved x = false ↔
    Text.sameWord x "true" = false ∧ Text.sameWord x "false" = false ∧
      Text.sameWord x "and" = false ∧ Text.sameWord x "or" = false ∧
      Text.sameWord x "not" = false := by
  simp [isReserved, reservedWords, sameWord_comm x]

/-- The scanner gives every word its one meaning. -/
theorem word_iff {x : String} : Word k x ↔ Token.wordKind x = k := by
  constructor
  · intro h
    cases h with
    | name h =>
      obtain ⟨h1, h2, h3, h4, h5⟩ := isReserved_eq_false_iff.1 h
      simp [Token.wordKind, h1, h2, h3, h4, h5]
    | constTrue h | constFalse h | and h | or h | not h =>
      rw [Text.sameWord, decide_eq_true_eq] at h
      simp only [Token.wordKind, Text.sameWord, h]
      rfl
  · rintro rfl
    unfold Token.wordKind
    split
    next h => exact .constTrue h
    next htrue =>
    split
    next h => exact .constFalse h
    next hfalse =>
    split
    next h => exact .and h
    next hand =>
    split
    next h => exact .or h
    next hor =>
    split
    next h => exact .not h
    next hnot =>
    simp only [Bool.not_eq_true] at htrue hfalse hand hor hnot
    exact .name (isReserved_eq_false_iff.2 ⟨htrue, hfalse, hand, hor, hnot⟩)

theorem Word.ne_other {x : String} (h : Word k x) : k ≠ .other := by
  cases h <;> simp

/-- Identifiers are the words that are not reserved. -/
theorem isIdentifier_iff {x : String} :
    isIdentifier x = true ↔ IsWord x.toList ∧ isReserved x = false := by
  unfold isIdentifier IsWord
  cases x.toList with
  | nil => simp
  | cons c cs => simp [and_assoc]

theorem IsWord.ne_nil (h : IsWord w) : w ≠ [] := by
  obtain ⟨c, cs, rfl, -⟩ := h
  simp

theorem IsWord.forall_isWordChar (h : IsWord w) : ∀ d ∈ w, isWordChar d = true := by
  obtain ⟨c, cs, rfl, hc, hcs⟩ := h
  intro d hd
  rcases List.mem_cons.1 hd with rfl | hd
  · exact isWordChar_of_isAlpha hc
  · exact hcs d hd

theorem IsWord.concat (h : IsWord w) (hc : isWordChar c = true) : IsWord (w ++ [c]) := by
  obtain ⟨d, ds, rfl, hd, hds⟩ := h
  refine ⟨d, ds ++ [c], rfl, hd, ?_⟩
  intro a ha
  rcases List.mem_append.1 ha with ha | ha
  · exact hds a ha
  · exact List.mem_singleton.1 ha ▸ hc

/-! ### Texts put together -/

theorem apart_nil : Apart [] := by
  simp [Apart]

theorem apart_cons : Apart (c :: cs) ↔ isWordChar c = false := by
  simp [Apart]

theorem Apart.append (h : Apart cs) (h' : Apart cs') : Apart (cs ++ cs') := by
  cases cs with
  | nil => exact h'
  | cons c cs => exact apart_cons.2 (apart_cons.1 h)

/-- A text has one first word at most. -/
theorem append_inj_of_apart (hw : ∀ d ∈ w, isWordChar d = true)
    (hu : ∀ d ∈ u, isWordChar d = true) (hcs : Apart cs) (hcs' : Apart cs')
    (h : w ++ cs = u ++ cs') : w = u ∧ cs = cs' := by
  induction w generalizing u with
  | nil =>
    cases u with
    | nil => exact ⟨rfl, h⟩
    | cons d u =>
      obtain rfl : cs = d :: (u ++ cs') := h
      exact absurd (hu d (by simp)) (by simp [apart_cons.1 hcs])
  | cons c w ih =>
    cases u with
    | nil =>
      obtain rfl : c :: (w ++ cs) = cs' := h
      exact absurd (hw c (by simp)) (by simp [apart_cons.1 hcs'])
    | cons d u =>
      obtain ⟨rfl, htail⟩ := List.cons.inj h
      obtain ⟨rfl, rfl⟩ := ih (fun a ha => hw a (List.mem_cons_of_mem c ha))
        (fun a ha => hu a (List.mem_cons_of_mem c ha)) htail
      exact ⟨rfl, rfl⟩

/-- Two texts put together have the tokens of both, unless a word runs over the seam. -/
theorem Lexes.append (h : Lexes cs ks) (h' : Lexes cs' ks') (ha : Apart cs') :
    Lexes (cs ++ cs') (ks ++ ks') := by
  induction h with
  | nil => exact h'
  | blank hb _ ih => exact .blank hb ih
  | mark hm _ ih => exact .mark hm ih
  | word hw hk hcs _ ih =>
    rw [List.append_assoc]
    exact .word hw hk (hcs.append ha) ih

theorem Lexes.of_word (hw : IsWord w) (hk : Word k (String.ofList w)) : Lexes w [k] := by
  have h := Lexes.word hw hk apart_nil .nil
  rwa [List.append_nil] at h

/-- The names in a text are identifiers. -/
theorem Lexes.isIdentifier {x : String} (h : Lexes cs ks) (hx : .var x ∈ ks) :
    isIdentifier x = true := by
  induction h with
  | nil => cases hx
  | blank _ _ ih => exact ih hx
  | mark hm _ ih =>
    rcases List.mem_cons.1 hx with rfl | hx
    · cases hm
    · exact ih hx
  | word hw hk _ _ ih =>
    rcases List.mem_cons.1 hx with rfl | hx
    · cases hk with
      | name hr => exact isIdentifier_iff.2 ⟨by rwa [String.toList_ofList], hr⟩
    · exact ih hx

theorem Lexes.other_not_mem (h : Lexes cs ks) : .other ∉ ks := by
  induction h with
  | nil => exact List.not_mem_nil
  | blank _ _ ih => exact ih
  | mark hm _ ih => exact List.not_mem_cons_of_ne_of_not_mem (mark_iff.1 hm).2.symm ih
  | word _ hk _ _ ih => exact List.not_mem_cons_of_ne_of_not_mem hk.ne_other.symm ih

/-! ### The scanner -/

namespace Token

/-- With a word begun, the scanner takes the characters that continue it. -/
theorem kinds_scan_word (hw : w ≠ []) (hu : ∀ d ∈ u, isWordChar d = true) (ha : Apart cs)
    (hcs : ∀ position, (scan [] position cs).map kind = ks) (position : Nat) :
    (scan w position (u ++ cs)).map kind = wordKind (String.ofList (w.reverse ++ u)) :: ks := by
  induction u generalizing w position with
  | nil =>
    cases cs with
    | nil =>
      have hks : ks = [] := (hcs 0).symm
      simp [scan, ofWord?, hw, hks]
    | cons c cs =>
      -- the word ends here, and the scanner goes on as if it began here
      have hc : isWordChar c = false := apart_cons.1 ha
      have hrest := hcs position
      simp only [scan, List.isEmpty_nil, if_true, isAlpha_of_not_isWordChar hc] at hrest
      simp [scan, ofWord?, hw, hc, ← hrest]
  | cons d u ih =>
    have hd : isWordChar d = true := hu d (by simp)
    have hu' : ∀ a ∈ u, isWordChar a = true := fun a ha => hu a (List.mem_cons_of_mem d ha)
    simp only [List.cons_append, scan, List.isEmpty_iff, hw, if_false, hd, if_true]
    rw [ih (by simp) hu']
    simp

/-- The tokens of a sequence of spellings. -/
theorem kinds_scan_of_lexes (h : Lexes cs ks) (position : Nat) :
    (scan [] position cs).map kind = ks := by
  induction h generalizing position with
  | nil => rfl
  | @blank c cs ks hb _ ih =>
    have hc : c.isAlpha = false := isAlpha_of_not_isWordChar (isWordChar_of_isBlank hb)
    simp [scan, ofWord?, hc, hb, ih]
  | @mark k c cs ks hm _ ih =>
    have hc : c.isAlpha = false := isAlpha_of_not_isWordChar hm.isWordChar
    simp [scan, ofWord?, hc, hm.isBlank, (mark_iff.1 hm).1, ih]
  | @word k w cs ks hw hk ha _ ih =>
    obtain ⟨c, u, rfl, hc, hu⟩ := hw
    have hone : [c] ≠ [] := by simp
    have htail := kinds_scan_word hone hu ha ih (position + c.utf8Size)
    rw [List.reverse_singleton, List.singleton_append, word_iff.1 hk] at htail
    simpa [scan, hc] using htail

/-- Tokens of a text and their positions, from a byte position on.  Characters without
meaning are tokens too; between the tokens stands white space only. -/
inductive Spells : Nat → List Char → List Token → Prop where
  | nil {n : Nat} : Spells n [] []
  | blank {n : Nat} {c : Char} {cs : List Char} {ts : List Token} :
      Text.isBlank c = true → Spells (n + c.utf8Size) cs ts → Spells n (c :: cs) ts
  | char {n : Nat} {c : Char} {cs : List Char} {ts : List Token} :
      c.isAlpha = false → Text.isBlank c = false → Spells (n + c.utf8Size) cs ts →
      Spells n (c :: cs) (⟨markKind c, n, [c]⟩ :: ts)
  | word {n : Nat} {w cs : List Char} {ts : List Token} :
      IsWord w → Apart cs → Spells (n + w.length) cs ts →
      Spells n (w ++ cs) (⟨wordKind (String.ofList w), n, w⟩ :: ts)

/-- The scanner leaves no character out; the characters of an unfinished word come first. -/
theorem spells_scan (hw : w = [] ∨ IsWord w.reverse) (n : Nat) :
    Spells n (w.reverse ++ cs) (scan w (n + w.length) cs) := by
  induction cs generalizing w n with
  | nil =>
    rcases hw with rfl | hw
    · exact .nil
    · have hne : w ≠ [] := by simpa using hw.ne_nil
      simpa [scan, ofWord?, hne] using Spells.word (n := n) hw apart_nil .nil
  | cons c cs ih =>
    by_cases htake : (if w.isEmpty then c.isAlpha else isWordChar c) = true
    · have hword : IsWord (c :: w).reverse ∧ isWordChar c = true := by
        rw [List.reverse_cons]
        rcases hw with rfl | hw
        · exact ⟨⟨c, [], rfl, htake, by simp⟩, isWordChar_of_isAlpha htake⟩
        · have hne : w ≠ [] := by simpa using hw.ne_nil
          have hc : isWordChar c = true := by simpa [hne] using htake
          exact ⟨hw.concat hc, hc⟩
      simp only [scan, htake, if_true]
      simpa [utf8Size_of_isWordChar hword.2, Nat.add_assoc] using ih (.inr hword.1) n
    · rw [scan, if_neg htake]
      -- what the scanner makes of the characters from `c` on
      have hrest : c.isAlpha = false → ∀ m, Spells m (c :: cs)
          (if Text.isBlank c = true then scan [] (m + c.utf8Size) cs
            else ⟨markKind c, m, [c]⟩ :: scan [] (m + c.utf8Size) cs) := by
        intro hc m
        have htail : Spells (m + c.utf8Size) cs (scan [] (m + c.utf8Size) cs) := ih (.inl rfl) _
        split
        · next hb => exact .blank hb htail
        · next hb => exact .char hc (by simpa using hb) htail
      rcases hw with rfl | hw
      · exact hrest (by simpa using htake) n
      · have hne : w ≠ [] := by simpa using hw.ne_nil
        have hc : isWordChar c = false := by simpa [hne] using htake
        simpa [ofWord?, hne] using Spells.word hw (apart_cons.2 hc)
          (by simpa using hrest (isAlpha_of_not_isWordChar hc) (n + w.reverse.length))

theorem spells_ofText (s : String) : Spells 0 s.toList (ofText s) :=
  spells_scan (.inl rfl) 0

/-- Where every character has a meaning, the tokens are the spellings of the text. -/
theorem Spells.lexes {n : Nat} {ts : List Token} (h : Spells n cs ts)
    (hother : .other ∉ ts.map kind) : Lexes cs (ts.map kind) := by
  induction h with
  | nil => exact .nil
  | blank hb _ ih => exact .blank hb (ih hother)
  | char _ _ _ ih =>
    obtain ⟨hmark, hlater⟩ := not_or.1 (mt List.mem_cons.2 hother)
    exact .mark (mark_iff.2 ⟨rfl, Ne.symm hmark⟩) (ih hlater)
  | word hw ha _ ih =>
    exact .word hw (word_iff.2 rfl) ha (ih fun hmem => hother (List.mem_cons_of_mem _ hmem))

end Token

/-- A text spells tokens exactly if the scanner finds them and finds nothing else. -/
theorem lexes_iff {s : String} :
    Lexes s.toList ks ↔ (Token.ofText s).map Token.kind = ks ∧ .other ∉ ks := by
  constructor
  · intro h
    exact ⟨Token.kinds_scan_of_lexes h 0, h.other_not_mem⟩
  · rintro ⟨rfl, hother⟩
    exact (Token.spells_ofText s).lexes hother

end Moore
