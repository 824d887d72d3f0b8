import Moore.Bindings
import Moore.Proofs.Except
import Moore.Proofs.Expr.Lexeme
import Moore.Proofs.NameMap

/-
# Reading bindings

Reading bindings is reading their entries one after the other.  A separator between two texts
ends the last entry of the first (`Text.pieces_append`), and what is read later is an update of
what was read before (`readEntries_eq_map`); so a text is read as its two parts are, the second
over the first.

`Written` says what texts of given entries look like, without recourse to reading: the name, an
equals sign and a spelling of the value, and between two entries at least one separator.  Every
such text is read as these entries (`parse_written`), since neither names nor values contain a
separator or an equals sign.
-/

namespace Moore

variable {c : Char} {as bs cs word : List Char} {p : Char → Bool}

/-! ### Pieces of a text -/

namespace Text

theorem pieces_append (h : p c = true) (as bs : List Char) :
    pieces p (as ++ c :: bs) = pieces p as ++ pieces p bs := by
  rw [pieces, List.splitOnP_append_cons as bs h, List.filter_append]
  rfl

theorem pieces_separator (h : p c = true) (cs : List Char) : pieces p (c :: cs) = pieces p cs :=
  pieces_append h [] cs

theorem pieces_word (h : ∀ c ∈ word, p c = false) (hne : word ≠ []) : pieces p word = [word] := by
  rw [pieces, List.splitOnP_eq_singleton h]
  simp [hne]

/-- A word before a separator, or at the end, is a piece of its own. -/
theorem pieces_word_append (h : ∀ c ∈ word, p c = false) (hne : word ≠ [])
    (hcs : ∀ c ∈ cs.head?, p c = true) : pieces p (word ++ cs) = word :: pieces p cs := by
  cases cs with
  | nil =>
    rw [List.append_nil, pieces_word h hne]
    rfl
  | cons c cs =>
    have hc : p c = true := hcs c rfl
    rw [pieces_append hc, pieces_word h hne, pieces_separator hc]
    rfl

theorem splitAtFirst?_append (h : ∀ c ∈ as, p c = false) (hc : p c = true) (bs : List Char) :
    splitAtFirst? p (as ++ c :: bs) = some (as, bs) := by
  induction as with
  | nil => exact if_pos hc
  | cons a as ih =>
    obtain ⟨ha, has⟩ := List.forall_mem_cons.1 h
    rw [List.cons_append, splitAtFirst?, ha, ih has]
    rfl

theorem dropWhile_isBlank (h : ∀ c ∈ cs, isBlank c = false) : cs.dropWhile isBlank = cs := by
  cases cs with
  | nil => rfl
  | cons c cs => rw [List.dropWhile_cons_of_neg (by simp [h c List.mem_cons_self])]

/-- Nothing is trimmed off a text without white space. -/
theorem trimChars_eq_self (h : ∀ c ∈ cs, isBlank c = false) : trimChars cs = cs := by
  have hreverse : ∀ c ∈ cs.reverse, isBlank c = false := fun c hc => h c (List.mem_reverse.1 hc)
  rw [trimChars, dropWhile_isBlank h, dropWhile_isBlank hreverse, List.reverse_reverse]

end Text

namespace Bindings

variable {es : List (String × Bool)} {name spelling : String} {value : Bool}

/-! ### Reading one part after the other -/

theorem readEntries_append (b : Bindings) (pieces rest : List (List Char)) :
    readEntries b (pieces ++ rest) = readEntries b pieces >>= fun b' => readEntries b' rest := by
  induction pieces generalizing b with
  | nil => rfl
  | cons piece pieces ih =>
    rw [List.cons_append, readEntries, readEntries]
    cases readEntry piece with
    | error err => rfl
    | ok e => exact ih (b.insert e.1 e.2)

/-- The bindings before the first entry are updated by what the entries say. -/
theorem readEntries_eq_map (b : Bindings) (pieces : List (List Char)) :
    readEntries b pieces = (readEntries ∅ pieces).map b.updatedBy := by
  induction pieces generalizing b with
  | nil => rfl
  | cons piece pieces ih =>
    rw [readEntries, readEntries]
    cases readEntry piece with
    | error err => rfl
    | ok e =>
      simp only
      rw [ih (b.insert e.1 e.2), ih ((∅ : Bindings).insert e.1 e.2)]
      cases readEntries ∅ pieces with
      | error err => rfl
      | ok later =>
        refine congrArg Except.ok ?_
        rw [b.insert_eq_updatedBy, NameMap.updatedBy_assoc]

/-- Two texts with a separator between them are read one after the other. -/
theorem parse_append (hc : isSeparator c = true) (first second : String) :
    parse (first ++ String.singleton c ++ second) = do
      let b ← parse first
      let b' ← parse second
      return b.updatedBy b' := by
  have hchars : (first ++ String.singleton c ++ second).toList =
      first.toList ++ c :: second.toList := by simp
  rw [parse, hchars, Text.pieces_append hc, readEntries_append]
  refine congrArg (parse first >>= ·) (funext fun b => ?_)
  rw [readEntries_eq_map, parse]
  cases readEntries ∅ (Text.pieces isSeparator second.toList) <;> rfl

/-! ### Written bindings -/

/-- The ways to write a value. -/
def spellings : Bool → List String
  | false => ["0", "false"]
  | true => ["1", "true"]

/-- The text writes the entries, in order: the name, an equals sign and a spelling of the value
of each, with separators anywhere around them and at least one between two of them. -/
inductive Written : List (String × Bool) → List Char → Prop where
  | nil : Written [] []
  | separator {c : Char} {es : List (String × Bool)} {cs : List Char} :
      isSeparator c = true → Written es cs → Written es (c :: cs)
  | entry {name spelling : String} {value : Bool} {es : List (String × Bool)} {cs : List Char} :
      spelling ∈ spellings value → (∀ c ∈ cs.head?, isSeparator c = true) → Written es cs →
      Written ((name, value) :: es) (name.toList ++ '=' :: spelling.toList ++ cs)

theorem Written.entry_separator (hspelling : spelling ∈ spellings value)
    (hc : isSeparator c = true) (h : Written es cs) :
    Written ((name, value) :: es) (name.toList ++ '=' :: spelling.toList ++ c :: cs) := by
  refine .entry hspelling (fun d hd => ?_) (.separator hc h)
  cases hd
  exact hc

/-- Separators are neither in names nor in values. -/
theorem isSeparator_of_isWordChar (h : isWordChar c = true) : isSeparator c = false := by
  have hcomma : c ≠ ',' := by
    rintro rfl
    cases h
  have hblank : Text.isBlank c = false := by
    rw [Bool.eq_false_iff]
    intro hb
    rw [isWordChar_of_isBlank hb] at h
    cases h
  rw [isSeparator, hblank, Bool.or_false, decide_eq_false hcomma]

/-- Nothing is trimmed off names and values. -/
theorem trimChars_of_isWordChar (h : ∀ c ∈ cs, isWordChar c = true) : Text.trimChars cs = cs := by
  refine Text.trimChars_eq_self fun c hc => ?_
  have hsep : isSeparator c = false := isSeparator_of_isWordChar (h c hc)
  rw [isSeparator, Bool.or_eq_false_iff] at hsep
  exact hsep.2

theorem isWordChar_of_mem_name (h : isIdentifier name = true) :
    ∀ c ∈ name.toList, isWordChar c = true :=
  (isIdentifier_iff.1 h).1.forall_isWordChar

theorem isWordChar_of_mem_spelling (h : spelling ∈ spellings value) :
    ∀ c ∈ spelling.toList, isWordChar c = true := by
  have hall : ∀ v, ((spellings v).all fun s => s.toList.all isWordChar) = true := by decide
  exact List.all_eq_true.1 (List.all_eq_true.1 (hall value) spelling h)

theorem readValue_spelling (h : spelling ∈ spellings value) : readValue spelling = .ok value := by
  have hall : ∀ v, ∀ s ∈ spellings v, readValue s = .ok v := by decide
  exact hall value spelling h

theorem isSeparator_of_mem_entry (hname : isIdentifier name = true)
    (hspelling : spelling ∈ spellings value) :
    ∀ c ∈ name.toList ++ '=' :: spelling.toList, isSeparator c = false := by
  intro c hc
  rcases List.mem_append.1 hc with hc | hc
  · exact isSeparator_of_isWordChar (isWordChar_of_mem_name hname c hc)
  · rcases List.mem_cons.1 hc with rfl | hc
    · decide
    · exact isSeparator_of_isWordChar (isWordChar_of_mem_spelling hspelling c hc)

theorem readEntry_written (hname : isIdentifier name = true)
    (hspelling : spelling ∈ spellings value) :
    readEntry (name.toList ++ '=' :: spelling.toList) = .ok (name, value) := by
  have hequals : ∀ c ∈ name.toList, decide (c = '=') = false := by
    intro c hc
    have hword : isWordChar c = true := isWordChar_of_mem_name hname c hc
    rw [decide_eq_false_iff_not]
    rintro rfl
    cases hword
  have hleft : Text.trimChars name.toList = name.toList :=
    trimChars_of_isWordChar (isWordChar_of_mem_name hname)
  have hright : Text.trimChars spelling.toList = spelling.toList :=
    trimChars_of_isWordChar (isWordChar_of_mem_spelling hspelling)
  rw [readEntry, Text.splitAtFirst?_append hequals (by decide)]
  simp only [hleft, hright, String.ofList_toList]
  rw [if_pos hname, readValue_spelling hspelling]
  rfl

/-- Written entries are bound one after the other. -/
theorem readEntries_written (h : Written es cs) (hnames : ∀ e ∈ es, isIdentifier e.1 = true)
    (b : Bindings) : readEntries b (Text.pieces isSeparator cs) =
      .ok (es.foldl (fun b e => b.insert e.1 e.2) b) := by
  induction h generalizing b with
  | nil => rfl
  | separator hc _ ih => rw [Text.pieces_separator hc, ih hnames]
  | entry hspelling hcs _ ih =>
    obtain ⟨hname, hrest⟩ := List.forall_mem_cons.1 hnames
    rw [Text.pieces_word_append (isSeparator_of_mem_entry hname hspelling) (by simp) hcs,
      readEntries, readEntry_written hname hspelling, List.foldl_cons]
    exact ih hrest _

/-- Of several entries with one name the last counts. -/
theorem parse_written {text : String} (h : Written es text.toList)
    (hnames : ∀ e ∈ es, isIdentifier e.1 = true) : parse text = .ok (NameMap.ofList es) :=
  readEntries_written h hnames ∅

/-- Reading bindings respects the parts of a text and undoes writing.  A text in two parts with
a separator between them is refused as the first part is, else as the second part is, and is
else read as the first part updated by the second.  The entries of bindings of identifiers,
written in any order and with any separators, are read as these bindings. -/
theorem parse_inverts_writing :
    (∀ (first second : String) (c : Char), isSeparator c = true →
        parse (first ++ String.singleton c ++ second) = do
          let b ← parse first
          let b' ← parse second
          return b.updatedBy b') ∧
      ∀ b : Bindings, (∀ x ∈ b.names, isIdentifier x = true) →
        ∀ (es : List (String × Bool)) (text : String), es.Perm b.entries →
          Written es text.toList → parse text = .ok b := by
  constructor
  · intro first second c hc
    exact parse_append hc first second
  · intro b hb es text hperm hwritten
    have hnames : ∀ e ∈ es, isIdentifier e.1 = true := fun e he =>
      hb e.1 (List.mem_map_of_mem (hperm.mem_iff.1 he))
    rw [parse_written hwritten hnames, NameMap.ofList_perm hperm]

/-- Two bindings with more separators than needed; the same text after other bindings, over which
it prevails; and two texts with a fault each, of which the first counts. -/
theorem later_bindings_prevail :
    let text := " halt=0,,\tgo=true "
    parse text = .ok (NameMap.ofList [("go", true), ("halt", false)]) ∧
      parse ("go=0 run=1" ++ String.singleton ',' ++ text) =
        .ok (NameMap.ofList [("go", true), ("halt", false), ("run", true)]) ∧
      parse ("go=2" ++ String.singleton ',' ++ "1x=0") = .error (.invalidValue "2") := by
  intro text
  obtain ⟨happend, hwritten⟩ := parse_inverts_writing
  have htext : text.toList = ' ' :: ("halt".toList ++ '=' :: "0".toList ++ ',' :: ',' :: '\t' ::
      ("go".toList ++ '=' :: "true".toList ++ [' '])) := by decide
  have hes : Written [("halt", false), ("go", true)] text.toList := by
    rw [htext]
    refine .separator (by decide) (.entry_separator (by decide) (by decide) ?_)
    refine .separator (by decide) (.separator (by decide) ?_)
    exact .entry_separator (by decide) (by decide) .nil
  have hread : parse text = .ok (NameMap.ofList [("go", true), ("halt", false)]) :=
    hwritten _ (by decide) _ text (.swap _ _ _) hes
  refine ⟨hread, ?_, ?_⟩
  · rw [happend _ _ ',' (by decide), hread]
    rfl
  · rw [happend _ _ ',' (by decide)]
    rfl

end Bindings

end Moore
