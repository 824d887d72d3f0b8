import Moore.Ordered

/-
# Strictly sorted lists are sets

For a lawful comparison a strictly sorted list has no repeated elements, and it is determined
by the set of its elements (`Strict.eq_of_mem_iff`).  So two sorted lists are compared by
membership, however they were built.
-/

namespace Moore.Ordered

variable {α : Type} {cmp : α → α → Ordering} {l m : List α}

theorem Strict.nodup [Std.ReflCmp cmp] (h : Strict cmp l) : l.Nodup := by
  refine h.imp ?_
  rintro a _ hlt rfl
  simp [Std.ReflCmp.compare_self] at hlt

theorem Strict.filter (h : Strict cmp l) (p : α → Bool) : Strict cmp (l.filter p) :=
  List.Pairwise.filter p h

/-- Strictly sorted lists with the same elements are the same list. -/
theorem Strict.eq_of_mem_iff [Std.TransCmp cmp] (hl : Strict cmp l) (hm : Strict cmp m)
    (h : ∀ x, x ∈ l ↔ x ∈ m) : l = m := by
  refine List.Perm.eq_of_pairwise ?_ hl hm ((List.perm_ext_iff_of_nodup hl.nodup hm.nodup).2 h)
  intro a b _ _ hab hba
  exact absurd hba (Std.OrientedCmp.not_lt_of_lt hab)

/-- A search in a strictly sorted list finds the least element that passes. -/
theorem Strict.find?_eq_some_iff [Std.TransCmp cmp] (h : Strict cmp l) {p : α → Bool} {a : α} :
    l.find? p = some a ↔ a ∈ l ∧ p a = true ∧ ∀ b ∈ l, p b = true → b ≠ a → cmp a b = .lt := by
  induction l with
  | nil => simp
  | cons c l ih =>
    obtain ⟨hc, hl⟩ := List.pairwise_cons.1 h
    by_cases hp : p c = true
    · rw [List.find?_cons_of_pos hp, Option.some.injEq]
      constructor
      · rintro rfl
        refine ⟨List.mem_cons_self, hp, fun b hb _ hne => ?_⟩
        exact hc b ((List.mem_cons.1 hb).resolve_left hne)
      · rintro ⟨ha, -, hleast⟩
        rcases List.mem_cons.1 ha with rfl | ha
        · rfl
        · have hlt : cmp c a = .lt := hc a ha
          have hne : c ≠ a := by
            rintro rfl
            simp [Std.ReflCmp.compare_self] at hlt
          exact absurd (hleast c List.mem_cons_self hp hne) (Std.OrientedCmp.not_lt_of_lt hlt)
    · rw [List.find?_cons_of_neg hp, ih hl]
      constructor
      · rintro ⟨ha, hpa, hleast⟩
        refine ⟨List.mem_cons_of_mem c ha, hpa, List.forall_mem_cons.2 ⟨?_, hleast⟩⟩
        exact fun hpc => absurd hpc hp
      · rintro ⟨ha, hpa, hleast⟩
        refine ⟨(List.mem_cons.1 ha).resolve_left ?_, hpa, (List.forall_mem_cons.1 hleast).2⟩
        rintro rfl
        exact hp hpa

end Moore.Ordered
