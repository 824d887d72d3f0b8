import Moore.Proofs.Expr.Lexeme

/-
# Positions of tokens

The position of a token is a number of bytes, and characters take one to four of them.  A
text can be divided before any of its tokens, and at its end: the characters in front take
exactly the bytes that the position counts (`Spells.divide`), so positions never fall inside
a character, and what stands in front spells the tokens in front, words included.  Positions
increase (`Spells.pairwise_position`) and stay below the length of the text
(`Spells.position_lt`).
-/

namespace Moore

variable {c : Char} {w cs : List Char} {n : Nat}

/-- The number of bytes that characters take in a text. -/
def byteSize (cs : List Char) : Nat :=
  (String.ofList cs).utf8ByteSize

@[simp] theorem byteSize_nil : byteSize [] = 0 := rfl

@[simp] theorem byteSize_cons : byteSize (c :: cs) = c.utf8Size + byteSize cs := by
  rw [byteSize, String.ofList_cons, String.utf8ByteSize_append, String.utf8ByteSize_singleton]
  rfl

@[simp] theorem byteSize_append : byteSize (w ++ cs) = byteSize w + byteSize cs := by
  simp only [byteSize, String.ofList_append, String.utf8ByteSize_append]

theorem byteSize_toList (s : String) : byteSize s.toList = s.utf8ByteSize := by
  rw [byteSize, String.ofList_toList]

/-- Each character of a word takes one byte. -/
theorem byteSize_word (h : ∀ d ∈ w, isWordChar d = true) : byteSize w = w.length := by
  induction w with
  | nil => rfl
  | cons d w ih =>
    obtain ⟨hd, hw⟩ := List.forall_mem_cons.1 h
    rw [byteSize_cons, utf8Size_of_isWordChar hd, ih hw, List.length_cons, Nat.add_comm]

theorem Apart.of_append (h : Apart (w ++ cs)) : Apart w := by
  cases w with
  | nil => exact apart_nil
  | cons d w => exact apart_cons.2 (apart_cons.1 h)

/-- Where the first of the tokens stands, or the end of the text if there is none. -/
def Token.start (stop : Nat) : List Token → Nat
  | [] => stop
  | t :: _ => t.position

/-- Tokens in increasing order start with the first one. -/
theorem Token.start_le {stop : Nat} {us rest : List Token} {t : Token}
    (h : (us ++ t :: rest).Pairwise fun t u => t.position < u.position) :
    Token.start stop (us ++ t :: rest) ≤ t.position := by
  cases us with
  | nil => exact Nat.le_refl _
  | cons u us => exact Nat.le_of_lt ((List.pairwise_cons.1 h).1 t (by simp))

namespace Token.Spells

variable {t : Token} {ts us rest : List Token}

theorem le_position (h : Spells n cs ts) (ht : t ∈ ts) : n ≤ t.position := by
  induction h with
  | nil => cases ht
  | blank _ _ ih => exact Nat.le_of_add_right_le (ih ht)
  | char _ _ _ ih =>
    rcases List.mem_cons.1 ht with rfl | ht
    · exact Nat.le_refl _
    · exact Nat.le_of_add_right_le (ih ht)
  | word _ _ _ ih =>
    rcases List.mem_cons.1 ht with rfl | ht
    · exact Nat.le_refl _
    · exact Nat.le_of_add_right_le (ih ht)

/-- Every token takes a byte at least. -/
theorem position_lt (h : Spells n cs ts) (ht : t ∈ ts) : t.position < n + byteSize cs := by
  induction h with
  | nil => cases ht
  | blank _ _ ih =>
    have hlt := ih ht
    rwa [byteSize_cons, ← Nat.add_assoc]
  | @char n c cs ts _ _ _ ih =>
    rw [byteSize_cons, ← Nat.add_assoc]
    rcases List.mem_cons.1 ht with rfl | ht
    · exact Nat.lt_of_lt_of_le (Nat.lt_add_of_pos_right c.utf8Size_pos) (Nat.le_add_right _ _)
    · exact ih ht
  | @word n w cs ts hw _ _ ih =>
    rw [byteSize_append, byteSize_word hw.forall_isWordChar, ← Nat.add_assoc]
    rcases List.mem_cons.1 ht with rfl | ht
    · have hpos : 0 < w.length := List.length_pos_iff.2 hw.ne_nil
      exact Nat.lt_of_lt_of_le (Nat.lt_add_of_pos_right hpos) (Nat.le_add_right _ _)
    · exact ih ht

theorem pairwise_position (h : Spells n cs ts) :
    ts.Pairwise fun t u => t.position < u.position := by
  induction h with
  | nil => exact .nil
  | blank _ _ ih => exact ih
  | @char n c cs ts _ _ htail ih =>
    refine .cons (fun u hu => ?_) ih
    exact Nat.lt_of_lt_of_le (Nat.lt_add_of_pos_right c.utf8Size_pos) (htail.le_position hu)
  | @word n w cs ts hw _ htail ih =>
    refine .cons (fun u hu => ?_) ih
    have hpos : 0 < w.length := List.length_pos_iff.2 hw.ne_nil
    exact Nat.lt_of_lt_of_le (Nat.lt_add_of_pos_right hpos) (htail.le_position hu)

/-- A text divided before one of its tokens. -/
theorem divide_cons (h : Spells n cs (us ++ t :: rest)) :
    ∃ pre post, cs = pre ++ (t.spelling ++ post) ∧ t.position = n + byteSize pre ∧
      Spells n pre us := by
  generalize hts : us ++ t :: rest = ts at h
  induction h generalizing us with
  | nil => simp at hts
  | @blank n c cs ts hb _ ih =>
    obtain ⟨pre, post, rfl, hposition, hus⟩ := ih hts
    exact ⟨c :: pre, post, rfl, by rw [hposition, byteSize_cons, Nat.add_assoc], .blank hb hus⟩
  | @char n c cs ts hc hb _ ih =>
    rcases List.append_eq_cons_iff.1 hts with ⟨rfl, heq⟩ | ⟨us, rfl, htail⟩
    · obtain ⟨rfl, -⟩ := List.cons.inj heq
      exact ⟨[], cs, rfl, rfl, .nil⟩
    · obtain ⟨pre, post, rfl, hposition, hus⟩ := ih htail.symm
      exact ⟨c :: pre, post, rfl, by rw [hposition, byteSize_cons, Nat.add_assoc],
        .char hc hb hus⟩
  | @word n w cs ts hw ha _ ih =>
    rcases List.append_eq_cons_iff.1 hts with ⟨rfl, heq⟩ | ⟨us, rfl, htail⟩
    · obtain ⟨rfl, -⟩ := List.cons.inj heq
      exact ⟨[], cs, rfl, rfl, .nil⟩
    · obtain ⟨pre, post, rfl, hposition, hus⟩ := ih htail.symm
      refine ⟨w ++ pre, post, by rw [List.append_assoc], ?_, .word hw ha.of_append hus⟩
      rw [hposition, byteSize_append, byteSize_word hw.forall_isWordChar, Nat.add_assoc]

/-- A text divided before one of its tokens, or at its end. -/
theorem divide (h : Spells n cs (us ++ rest)) :
    ∃ pre post, cs = pre ++ post ∧ Token.start (n + byteSize cs) rest = n + byteSize pre ∧
      Spells n pre us := by
  cases rest with
  | nil =>
    rw [List.append_nil] at h
    exact ⟨cs, [], (List.append_nil cs).symm, rfl, h⟩
  | cons t rest =>
    obtain ⟨pre, post, hcs, hposition, hus⟩ := h.divide_cons
    exact ⟨pre, t.spelling ++ post, hcs, hposition, hus⟩

end Token.Spells

/-- Every token stands in the text where its position says. -/
theorem exists_spelling {t : Token} {text : String} (ht : t ∈ Token.ofText text) :
    ∃ pre post : String, text = pre ++ String.ofList t.spelling ++ post ∧
      pre.utf8ByteSize = t.position := by
  obtain ⟨us, rest, hts⟩ := List.append_of_mem ht
  have hspells := Token.spells_ofText text
  rw [hts] at hspells
  obtain ⟨pre, post, hcs, hposition, -⟩ := hspells.divide_cons
  refine ⟨String.ofList pre, String.ofList post, ?_, ?_⟩
  · rw [← String.ofList_append, ← String.ofList_append, List.append_assoc, ← hcs,
      String.ofList_toList]
  · rw [hposition, Nat.zero_add, byteSize]

end Moore
