import Moore.Proofs.Expr.Irredundant

/-
# Minimal terms

`minimize` sorts a list of terms and passes over it once, comparing each term only with those
that it has kept so far.  What is left is said here without the pass: the terms that no other
term of the list subsumes, in the order of their sizes and then of their literals.

The pass overlooks no subsumption (`exists_kept_iff`).  A term that subsumes another one is
shorter, so the pass has come to it before; and if it was dropped itself, it contains a term
that was kept, which then subsumes the other one as well.
-/

namespace Moore.Term

variable {s t : Term} {ts us kept passed rest : List Term}

/-- The first term has fewer literals, or as many and its literals are lexicographically
less, compared by their names and then by their polarities, the negative one first. -/
def Precedes (s t : Term) : Prop :=
  s.size < t.size ∨ s.size = t.size ∧ List.Lex (Prod.Lex (· < ·) (· < ·)) s.entries t.entries

/-- Another term of the list is part of the term. -/
def Subsumed (ts : List Term) (t : Term) : Prop :=
  ∃ s ∈ ts, s.KeptBy t ∧ s ≠ t

/-! ### The order of the terms -/

theorem cmpLiteral_eq_lt_iff {l m : String × Bool} :
    cmpLiteral l m = .lt ↔ Prod.Lex (· < ·) (· < ·) l m := by
  have hname : compare l.1 m.1 = .lt ↔ l.1 < m.1 := compareOfLessAndEq_eq_lt
  have hpolarity : ∀ p q : Bool, compare p q = .lt ↔ p < q := by decide
  rw [cmpLiteral, Ordering.then_eq_lt, Std.LawfulEqCmp.compare_eq_iff_eq, hname, hpolarity,
    Prod.lex_def]

theorem compareLex_cmpLiteral_eq_lt_iff {l m : List (String × Bool)} :
    List.compareLex cmpLiteral l m = .lt ↔ List.Lex (Prod.Lex (· < ·) (· < ·)) l m := by
  induction l generalizing m with
  | nil =>
    cases m with
    | nil => simp [List.compareLex_nil_nil]
    | cons b m => simp [List.compareLex_nil_cons]
  | cons a l ih =>
    cases m with
    | nil => simp [List.compareLex_cons_nil]
    | cons b m =>
      rw [List.compareLex_cons_cons, Ordering.then_eq_lt, cmpLiteral_eq_lt_iff,
        Std.LawfulEqCmp.compare_eq_iff_eq, ih, List.cons_lex_cons_iff]

theorem cmp_eq_lt_iff : cmp s t = .lt ↔ s.Precedes t := by
  rw [cmp, Ordering.then_eq_lt, Nat.compare_eq_lt, Nat.compare_eq_eq,
    compareLex_cmpLiteral_eq_lt_iff, Precedes]

theorem pairwise_minimize (ts : List Term) : (minimize ts).Pairwise Precedes :=
  (irredundant_minimize ts).increasing.imp cmp_eq_lt_iff.1

/-! ### The terms that are left -/

theorem mem_minimize_iff_not_subsumed : t ∈ minimize ts ↔ t ∈ ts ∧ ¬Subsumed ts t := by
  rw [mem_minimize_iff, Subsumed]
  simp only [not_exists, not_and, not_not]

/-- Only the set of terms counts. -/
theorem minimize_congr (h : ∀ t, t ∈ us ↔ t ∈ ts) : minimize us = minimize ts := by
  refine (irredundant_minimize us).increasing.eq_of_mem_iff (irredundant_minimize ts).increasing
    fun t => ?_
  simp only [mem_minimize_iff, h]

theorem exists_part_of_mem (h : t ∈ ts) : ∃ k ∈ minimize ts, k.KeptBy t :=
  covers_minimize.2 ⟨t, h, .refl t⟩

/-! ### The pass -/

/-- The pass goes on with the terms that it has kept. -/
theorem sift_append (kept ts us : List Term) :
    sift kept (ts ++ us) = sift kept ts ++ sift ((sift kept ts).reverse ++ kept) us := by
  induction ts generalizing kept with
  | nil => rfl
  | cons t ts ih =>
    simp only [List.cons_append, sift]
    split
    · exact ih kept
    · rw [ih (t :: kept), List.reverse_cons, List.append_assoc, List.cons_append]
      rfl

theorem size_lt_of_keptBy (h : s.KeptBy t) (hne : s ≠ t) : s.size < t.size := by
  have hle : s.size ≤ t.size := h.size_le
  have hnot : ¬t.size ≤ s.size := fun hge => hne (h.eq_of_size_le hge)
  omega

/-- Where the pass comes to a term, one of the terms kept so far is part of it exactly if
another term of the whole list is. -/
theorem exists_kept_iff (h : Ordered.Strict cmp (passed ++ t :: rest)) :
    (∃ k ∈ sift [] passed, k.KeptBy t) ↔ Subsumed (passed ++ t :: rest) t := by
  obtain ⟨-, htail, hbefore⟩ := List.pairwise_append.1 h
  have hafter : ∀ s ∈ rest, cmp t s = .lt := (List.pairwise_cons.1 htail).1
  constructor
  · rintro ⟨k, hk, hkt⟩
    have hpassed : k ∈ passed := (sift_sublist [] passed).subset hk
    have hlt : cmp k t = .lt := hbefore k hpassed t List.mem_cons_self
    refine ⟨k, List.mem_append_left _ hpassed, hkt, ?_⟩
    rintro rfl
    simp [Std.ReflCmp.compare_self] at hlt
  · rintro ⟨s, hs, hst, hne⟩
    have hshorter : s.size < t.size := size_lt_of_keptBy hst hne
    have hpassed : s ∈ passed := by
      rcases List.mem_append.1 hs with hs | hs
      · exact hs
      · have hrest : s ∈ rest := (List.mem_cons.1 hs).resolve_left hne
        have hle : t.size ≤ s.size := size_le_of_cmp (hafter s hrest)
        omega
    obtain ⟨k, hk, hks⟩ := exists_isSubterm_of_sift [] hpassed
    exact ⟨k, hk.resolve_left List.not_mem_nil, (isSubterm_iff.1 hks).trans hst⟩

/-- Minimizing keeps exactly the terms that no other term of the list subsumes, each once and
in increasing order.  So only the set of terms counts, and every term contains one that is
kept.  The pass needs to compare a term only with those that it has kept already, which begin
the result: one of them is part of the term exactly if any other term of the list is. -/
theorem minimize_keeps_minimal (ts : List Term) :
    ((minimize ts).Pairwise Precedes ∧ (minimize ts).Nodup ∧
        ∀ t, t ∈ minimize ts ↔ t ∈ ts ∧ ¬Subsumed ts t) ∧
      (∀ us, (∀ t, t ∈ us ↔ t ∈ ts) → minimize us = minimize ts) ∧
      (∀ t ∈ ts, ∃ k ∈ minimize ts, k.isSubterm t = true) ∧
      ∀ passed t rest, Ordered.ofList cmp ts = passed ++ t :: rest →
        sift [] passed <+: minimize ts ∧
          ((sift [] passed).any (·.isSubterm t) = true ↔ Subsumed ts t) := by
  have hnodup : (minimize ts).Nodup := (irredundant_minimize ts).increasing.nodup
  refine ⟨⟨pairwise_minimize ts, hnodup, fun t => mem_minimize_iff_not_subsumed⟩,
    fun us h => minimize_congr h, ?_, ?_⟩
  · intro t ht
    obtain ⟨k, hk, hkt⟩ := exists_part_of_mem ht
    exact ⟨k, hk, isSubterm_iff.2 hkt⟩
  · intro passed t rest hsplit
    have hstrict : Ordered.Strict cmp (passed ++ t :: rest) := hsplit ▸ Ordered.strict_ofList ts
    have hsame : Subsumed (passed ++ t :: rest) t ↔ Subsumed ts t := by
      simp only [Subsumed, ← hsplit, Ordered.mem_ofList]
    refine ⟨?_, ?_⟩
    · rw [minimize, hsplit, sift_append]
      exact ⟨_, rfl⟩
    · rw [← hsame, ← exists_kept_iff hstrict, List.any_eq_true]
      simp only [isSubterm_iff]

/-- Of five terms two are left: `b` subsumes `a & b` and `a & b & c` and comes twice.  Without
the repetition and in another order the result is the same. -/
theorem subsumed_terms_dropped :
    let b : Term := single "b" true
    let ab : Term := NameMap.ofList [("a", true), ("b", true)]
    let abc : Term := NameMap.ofList [("a", true), ("b", true), ("c", true)]
    let other : Term := NameMap.ofList [("a", true), ("c", false)]
    minimize [abc, b, other, ab, b] = [b, other] ∧
      minimize [other, ab, b, abc] = minimize [abc, b, other, ab, b] ∧
      (∃ k ∈ minimize [abc, b, other, ab, b], k.isSubterm abc = true) ∧
      Subsumed [abc, b, other, ab, b] abc := by
  intro b ab abc other
  have hsame : ∀ t, t ∈ [other, ab, b, abc] ↔ t ∈ [abc, b, other, ab, b] := by
    intro t
    simp only [List.mem_cons, List.not_mem_nil, or_false]
    grind
  have hsplit : Ordered.ofList cmp [abc, b, other, ab, b] = [b, ab, other] ++ abc :: [] := by
    decide
  obtain ⟨-, hset, hpart, hpass⟩ := minimize_keeps_minimal [abc, b, other, ab, b]
  exact ⟨by decide, hset [other, ab, b, abc] hsame, hpart abc List.mem_cons_self,
    (hpass [b, ab, other] abc [] hsplit).2.1 (by decide)⟩

end Moore.Term
