import Moore.Condition
import Moore.Proofs.Expr.NormalForm
import Moore.Proofs.Expr.Substitute

/-
# Exclusive and exhaustive conditions

The questions about conditions are answered by normal forms and come out right because
normal forms decide.  `overlappingPairs` is the list of all pairs of positions whose
conditions hold together under some assignment, in lexicographic order, and the search for
the first overlap finds its head.

The same answers can be read off the number of conditions that hold: it is never above one
without an overlap, and never zero for exhaustive conditions.  Bindings of all inputs make
as many conditions true as hold under their extensions, and other bindings no more.
-/

namespace Moore

/-! ### Pairs of an element and a later one -/

section LaterPairs

variable {α : Type}

theorem mem_laterPairs {l : List α} {a b : α} :
    (a, b) ∈ laterPairs l ↔ ∃ i j : Nat, i < j ∧ l[i]? = some a ∧ l[j]? = some b := by
  induction l with
  | nil => simp [laterPairs]
  | cons x xs ih =>
    simp only [laterPairs, List.mem_append, List.mem_map]
    constructor
    · rintro (⟨y, hy, heq⟩ | h)
      · cases heq
        obtain ⟨j, hj⟩ := List.mem_iff_getElem?.1 hy
        exact ⟨0, j + 1, by omega, by simp, by simpa using hj⟩
      · obtain ⟨i, j, hij, hi, hj⟩ := ih.1 h
        exact ⟨i + 1, j + 1, by omega, by simpa using hi, by simpa using hj⟩
    · rintro ⟨i, j, hij, hi, hj⟩
      cases j with
      | zero => omega
      | succ j =>
        cases i with
        | zero =>
          have hxa : x = a := by simpa using hi
          exact .inl ⟨b, List.mem_iff_getElem?.2 ⟨j, by simpa using hj⟩, by rw [hxa]⟩
        | succ i =>
          exact .inr (ih.2 ⟨i, j, by omega, by simpa using hi, by simpa using hj⟩)

/-- The pairs of an increasing list increase lexicographically. -/
theorem pairwise_laterPairs {R : α → α → Prop} {l : List α} (h : l.Pairwise R) :
    (laterPairs l).Pairwise fun p q => R p.1 q.1 ∨ p.1 = q.1 ∧ R p.2 q.2 := by
  induction l with
  | nil => simp [laterPairs]
  | cons x xs ih =>
    obtain ⟨hx, hxs⟩ := List.pairwise_cons.1 h
    rw [laterPairs, List.pairwise_append]
    refine ⟨?_, ih hxs, ?_⟩
    · rw [List.pairwise_map]
      exact hxs.imp fun hab => .inr ⟨rfl, hab⟩
    · intro p hp q hq
      obtain ⟨y, hy, rfl⟩ := List.mem_map.1 hp
      obtain ⟨i, j, -, hi, -⟩ := mem_laterPairs.1 (show (q.1, q.2) ∈ laterPairs xs from hq)
      exact .inl (hx q.1 (List.mem_of_getElem? hi))

/-- At most one element passes a test exactly if no two elements do. -/
theorem countP_le_one_iff {p : α → Bool} {l : List α} :
    l.countP p ≤ 1 ↔ ∀ q ∈ laterPairs l, ¬(p q.1 = true ∧ p q.2 = true) := by
  induction l with
  | nil => simp [laterPairs]
  | cons x xs ih =>
    simp only [laterPairs, List.forall_mem_append, List.forall_mem_map]
    by_cases hx : p x = true
    · have hrest : xs.countP p = 0 ↔ ∀ y ∈ xs, ¬p y = true := List.countP_eq_zero
      rw [List.countP_cons_of_pos hx]
      constructor
      · intro hle
        exact ⟨fun y hy hxy => hrest.1 (by omega) y hy hxy.2, ih.1 (by omega)⟩
      · rintro ⟨hxs, -⟩
        have hzero : xs.countP p = 0 := hrest.2 fun y hy hpy => hxs y hy ⟨hx, hpy⟩
        omega
    · rw [List.countP_cons_of_neg hx, ih]
      simp [hx]

theorem pairwise_zipIdx (l : List α) : l.zipIdx.Pairwise fun p q => p.2 < q.2 := by
  rw [← List.pairwise_map (R := (· < ·)), List.zipIdx_map_snd]
  exact List.pairwise_lt_range'

end LaterPairs

/-- Some assignment makes both conditions true exactly if the check says so. -/
theorem Condition.overlaps_iff {c d : Condition} :
    Condition.overlaps c d = true ↔ ∃ σ, c.eval σ = true ∧ d.eval σ = true := by
  rw [Condition.overlaps, Bool.not_eq_true', Bool.eq_false_iff, ne_eq, Expr.isFalse_iff,
    Expr.simplify_dnf_eq_false_iff]
  simp

theorem Condition.isSatisfiedBy_iff {c : Condition} {b : Bindings} :
    c.isSatisfiedBy b = true ↔ c.evaluate b = some true := by
  rw [Condition.isSatisfiedBy, Expr.isTrue_iff, ← Expr.evaluate_eq_some_iff]

/-- What the bindings make true is true under every extension of them. -/
theorem Condition.eval_of_isSatisfiedBy {c : Condition} {b : Bindings} {σ : String → Bool}
    (h : c.isSatisfiedBy b = true) (hσ : b.ExtendedBy σ) : c.eval σ = true :=
  Expr.eval_of_evaluate (Condition.isSatisfiedBy_iff.1 h) hσ

/-- Bindings of all inputs of a condition make it true or false. -/
theorem Condition.isSatisfiedBy_of_bound {c : Condition} {b : Bindings}
    (h : ∀ x ∈ c.inputs, x ∈ b.names) (σ : String → Bool) :
    c.isSatisfiedBy b = c.eval (b.override σ) := by
  rw [Bool.eq_iff_iff, Condition.isSatisfiedBy_iff, Expr.evaluate_of_bound h σ,
    Option.some.injEq]

namespace ConditionSet

variable {cs : ConditionSet}

theorem mem_overlappingPairs {i j : Nat} :
    (i, j) ∈ cs.overlappingPairs ↔ i < j ∧ ∃ c d, cs[i]? = some c ∧ cs[j]? = some d ∧
      ∃ σ, c.eval σ = true ∧ d.eval σ = true := by
  simp only [overlappingPairs, List.mem_filterMap, Option.ite_none_right_eq_some,
    Option.some.injEq, Prod.mk.injEq, Condition.overlaps_iff]
  constructor
  · rintro ⟨⟨⟨c, k⟩, ⟨d, l⟩⟩, hp, hσ, rfl, rfl⟩
    obtain ⟨m, n, hmn, hm, hn⟩ := mem_laterPairs.1 hp
    rw [List.getElem?_zipIdx, Option.map_eq_some_iff] at hm hn
    obtain ⟨_, hc, heq⟩ := hm
    cases heq
    obtain ⟨_, hd, heq⟩ := hn
    cases heq
    exact ⟨by simpa using hmn, c, d, by simpa using hc, by simpa using hd, hσ⟩
  · rintro ⟨hij, c, d, hc, hd, hσ⟩
    refine ⟨((c, i), (d, j)), mem_laterPairs.2 ⟨i, j, hij, ?_, ?_⟩, hσ, rfl, rfl⟩
    · simp [List.getElem?_zipIdx, hc]
    · simp [List.getElem?_zipIdx, hd]

theorem pairwise_overlappingPairs (cs : ConditionSet) :
    cs.overlappingPairs.Pairwise (Prod.Lex (· < ·) (· < ·)) := by
  rw [overlappingPairs, List.pairwise_filterMap]
  refine (pairwise_laterPairs (pairwise_zipIdx cs)).imp ?_
  intro p q hpq a ha b hb
  obtain ⟨-, ha⟩ := Option.ite_none_right_eq_some.1 ha
  obtain ⟨-, hb⟩ := Option.ite_none_right_eq_some.1 hb
  cases ha
  cases hb
  rcases hpq with h | ⟨heq, h⟩
  · exact .left _ _ h
  · rw [heq]
    exact .right _ h

/-- The search finds the first pair of the enumeration. -/
theorem firstOverlap?_eq_head? (cs : ConditionSet) :
    cs.firstOverlap? = cs.overlappingPairs.head? := by
  simp only [firstOverlap?, overlappingPairs]
  induction laterPairs cs.zipIdx with
  | nil => rfl
  | cons p ps ih =>
    by_cases h : Condition.overlaps p.1.1 p.2.1 = true
    · simp [h]
    · simpa [h] using ih

theorem isExclusive_iff : cs.isExclusive = true ↔ cs.overlappingPairs = [] := by
  rw [isExclusive, firstOverlap?_eq_head?, Option.isNone_iff_eq_none, List.head?_eq_none_iff]

/-- Some condition holds whatever the assignment exactly if the check says so. -/
theorem isExhaustive_iff : cs.isExhaustive = true ↔ ∀ σ, ∃ c ∈ cs, c.eval σ = true := by
  rw [isExhaustive, Expr.isTrue_iff, Expr.simplify_cnf_eq_true_iff]
  simp

/-- The pairs that are reported are exactly those of an earlier and a later condition that
hold together under some assignment, each once and in lexicographic order; conditions are
exclusive if there is none, and exhaustive if one of them always holds. -/
theorem overlap_and_coverage_exact (cs : ConditionSet) :
    (∀ i j, (i, j) ∈ cs.overlappingPairs ↔ i < j ∧ ∃ c d, cs[i]? = some c ∧ cs[j]? = some d ∧
        ∃ σ, c.eval σ = true ∧ d.eval σ = true) ∧
      cs.overlappingPairs.Pairwise (Prod.Lex (· < ·) (· < ·)) ∧
      cs.firstOverlap? = cs.overlappingPairs.head? ∧
      (cs.isExclusive = true ↔ cs.overlappingPairs = []) ∧
      (cs.isExhaustive = true ↔ ∀ σ, ∃ c ∈ cs, c.eval σ = true) ∧
      isExhaustive [] = false := by
  have hempty : isExhaustive [] = false := by
    rw [Bool.eq_false_iff, ne_eq, isExhaustive_iff]
    simp
  exact ⟨fun _ _ => mem_overlappingPairs, pairwise_overlappingPairs cs, firstOverlap?_eq_head? cs,
    isExclusive_iff, isExhaustive_iff, hempty⟩

/-! ### How many conditions hold -/

/-- Under every assignment at most one condition holds exactly if no two overlap. -/
theorem countP_eval_le_one_iff : (∀ σ, cs.countP (Expr.eval σ) ≤ 1) ↔
    ∀ p ∈ laterPairs cs, ¬Condition.overlaps p.1 p.2 = true := by
  simp only [countP_le_one_iff, Condition.overlaps_iff, not_exists]
  constructor
  · intro h p hp σ
    exact h σ p hp
  · intro h σ p hp
    exact h p hp σ

/-- Conditions are exclusive exactly if under every assignment at most one of them holds. -/
theorem isExclusive_iff_countP : cs.isExclusive = true ↔ ∀ σ, cs.countP (Expr.eval σ) ≤ 1 := by
  rw [isExclusive_iff, countP_eval_le_one_iff, List.eq_nil_iff_forall_not_mem]
  simp only [Prod.forall, mem_overlappingPairs, mem_laterPairs, Condition.overlaps_iff]
  constructor
  · rintro h c d ⟨i, j, hij, hi, hj⟩ hσ
    exact h i j ⟨hij, c, d, hi, hj, hσ⟩
  · rintro h i j ⟨hij, c, d, hi, hj, hσ⟩
    exact h c d ⟨i, j, hij, hi, hj⟩ hσ

/-- Under every assignment some condition holds exactly if the check says so. -/
theorem countP_eval_pos_iff :
    (∀ σ, 0 < cs.countP (Expr.eval σ)) ↔ cs.isExhaustive = true := by
  simp only [isExhaustive_iff, List.countP_pos_iff]

variable {b : Bindings}

/-- Bindings make no more conditions true than hold under an extension of them. -/
theorem countP_isSatisfiedBy_le {σ : String → Bool} (hσ : b.ExtendedBy σ) :
    cs.countP (Condition.isSatisfiedBy · b) ≤ cs.countP (Expr.eval σ) :=
  List.countP_mono_left fun _ _ h => Condition.eval_of_isSatisfiedBy h hσ

theorem mem_inputs_of_mem {c : Condition} (hc : c ∈ cs) {x : String} (hx : x ∈ c.inputs) :
    x ∈ cs.inputs := by
  rw [inputs, Ordered.mem_ofList, List.mem_flatMap]
  exact ⟨c, hc, Expr.mem_inputs.1 hx⟩

/-- Bindings of all inputs make as many conditions true as hold under their extensions. -/
theorem countP_isSatisfiedBy_of_bound (h : ∀ x ∈ cs.inputs, x ∈ b.names) (σ : String → Bool) :
    cs.countP (Condition.isSatisfiedBy · b) = cs.countP (Expr.eval (b.override σ)) := by
  refine List.countP_congr fun c hc => ?_
  rw [Condition.isSatisfiedBy_of_bound (fun x hx => h x (mem_inputs_of_mem hc hx)) σ]

/-- Bindings of all inputs say as much about the number of conditions that hold as
assignments do. -/
theorem forall_bindings_iff {P : Nat → Prop} {xs : List String} (hxs : ∀ x ∈ cs.inputs, x ∈ xs) :
    (∀ b : Bindings, (∀ x ∈ xs, x ∈ b.names) →
        P (cs.countP (Condition.isSatisfiedBy · b))) ↔
      ∀ σ, P (cs.countP (Expr.eval σ)) := by
  constructor
  · intro h σ
    have hall : ∀ x ∈ xs, x ∈ (NameMap.ofAssignment σ xs).names := fun x hx =>
      NameMap.mem_names_ofAssignment hx
    have hσ : (NameMap.ofAssignment σ xs).override σ = σ :=
      (NameMap.extendedBy_ofAssignment σ xs).override_eq
    have hP := h (NameMap.ofAssignment σ xs) hall
    rw [countP_isSatisfiedBy_of_bound (fun x hx => hall x (hxs x hx)) σ, hσ] at hP
    exact hP
  · intro h b hb
    rw [countP_isSatisfiedBy_of_bound (fun x hx => hb x (hxs x hx)) fun _ => false]
    exact h _

end ConditionSet

end Moore
