import Moore.Proofs.Expr.Term
import Moore.Proofs.NameMap
import Moore.Proofs.Ordered

/-
# Irredundant lists of terms

A list of terms is irredundant if the terms strictly increase and none contains another.
`minimize` keeps exactly the terms that contain no other term of the list
(`mem_minimize_iff`), so its results are irredundant.  That it compares a term only with those
kept before is enough, because shorter terms come first.

An irredundant list is determined by the bindings that it covers (`Irredundant.eq_of_covers`):
its terms are the least of them.  So two ways to collect terms agree if they cover the same
bindings, whatever was minimized on the way.
-/

namespace Moore

namespace Term

variable {s t : Term} {ts us kept : List Term}

/-! ### The order of terms -/

instance : Std.TransCmp cmpLiteral :=
  inferInstanceAs (Std.TransCmp (compareLex (compareOn Prod.fst) (compareOn Prod.snd)))

/-- Terms of one size are compared as their lists of literals. -/
instance : Std.TransCmp fun s t : Term => List.compareLex cmpLiteral s.entries t.entries where
  eq_swap := Std.OrientedCmp.eq_swap
  isLE_trans := Std.TransCmp.isLE_trans

instance : Std.TransCmp cmp :=
  inferInstanceAs (Std.TransCmp (compareLex (compareOn NameMap.size)
    fun s t => List.compareLex cmpLiteral s.entries t.entries))

/-- Shorter terms come first. -/
theorem size_le_of_cmp (h : cmp s t = .lt) : s.size ≤ t.size := by
  rw [cmp, Ordering.then_eq_lt] at h
  rcases h with h | ⟨h, -⟩
  · exact Nat.le_of_lt (Nat.compare_eq_lt.1 h)
  · exact Nat.le_of_eq (Nat.compare_eq_eq.1 h)

/-! ### Minimal terms -/

/-- Terms that strictly increase, by the number of literals and then literal by literal, and
of which none contains another. -/
structure Irredundant (ts : List Term) : Prop where
  increasing : Ordered.Strict cmp ts
  incomparable : ∀ s ∈ ts, ∀ t ∈ ts, s.KeptBy t → s = t

theorem irredundant_nil : Irredundant [] where
  increasing := .nil
  incomparable := List.forall_mem_nil _

theorem irredundant_singleton (t : Term) : Irredundant [t] where
  increasing := List.pairwise_singleton _ _
  incomparable := by simp

/-- The terms kept of a sorted list are those that contain no term kept before and no other
term of the list. -/
theorem mem_sift_iff (h : Ordered.Strict cmp ts) : t ∈ sift kept ts ↔
    t ∈ ts ∧ (∀ k ∈ kept, ¬k.KeptBy t) ∧ ∀ s ∈ ts, s.KeptBy t → s = t := by
  induction ts generalizing kept with
  | nil => simp [sift]
  | cons u us ih =>
    obtain ⟨hu, hus⟩ := List.pairwise_cons.1 h
    have hlonger : ∀ s ∈ us, s.KeptBy u → s = u := fun s hs hsu =>
      hsu.eq_of_size_le (size_le_of_cmp (hu s hs))
    simp only [sift]
    split
    · next hany =>
      -- A term that contains `u` contains the term kept before that `u` contains.
      obtain ⟨k, hk, hku⟩ := List.any_eq_true.1 hany
      rw [isSubterm_iff] at hku
      rw [ih hus]
      constructor
      · rintro ⟨ht, hkept, hmin⟩
        refine ⟨List.mem_cons_of_mem u ht, hkept, List.forall_mem_cons.2 ⟨fun hut => ?_, hmin⟩⟩
        exact absurd (hku.trans hut) (hkept k hk)
      · rintro ⟨ht, hkept, hmin⟩
        have hne : t ≠ u := by
          rintro rfl
          exact hkept k hk hku
        exact ⟨(List.mem_cons.1 ht).resolve_left hne, hkept, (List.forall_mem_cons.1 hmin).2⟩
    · next hnone =>
      simp only [List.any_eq_true, isSubterm_iff, not_exists, not_and] at hnone
      rw [List.mem_cons, ih hus, List.forall_mem_cons]
      constructor
      · rintro (rfl | ⟨ht, ⟨hut, hkept⟩, hmin⟩)
        · exact ⟨List.mem_cons_self, hnone, List.forall_mem_cons.2 ⟨fun _ => rfl, hlonger⟩⟩
        · refine ⟨List.mem_cons_of_mem u ht, hkept, List.forall_mem_cons.2 ⟨fun h => ?_, hmin⟩⟩
          exact absurd h hut
      · rintro ⟨ht, hkept, hmin⟩
        obtain ⟨hfirst, hmin⟩ := List.forall_mem_cons.1 hmin
        rcases List.mem_cons.1 ht with rfl | ht
        · exact .inl rfl
        · have hne : u ≠ t := by
            rintro rfl
            exact absurd (hu u ht) (by simp [Std.ReflCmp.compare_self])
          exact .inr ⟨ht, ⟨fun hut => hne (hfirst hut), hkept⟩, hmin⟩

/-- Minimizing keeps the terms that contain no other term of the list. -/
theorem mem_minimize_iff : t ∈ minimize ts ↔ t ∈ ts ∧ ∀ s ∈ ts, s.KeptBy t → s = t := by
  rw [minimize, mem_sift_iff (Ordered.strict_ofList ts)]
  simp [Ordered.mem_ofList]

theorem irredundant_minimize (ts : List Term) : Irredundant (minimize ts) where
  increasing := (Ordered.strict_ofList ts).sublist (sift_sublist [] _)
  incomparable s hs _ ht hst := (mem_minimize_iff.1 ht).2 s (mem_minimize_iff.1 hs).1 hst

/-! ### Irredundant lists -/

/-- The terms are the least bindings that are covered. -/
theorem Irredundant.mem_iff (h : Irredundant ts) :
    t ∈ ts ↔ Covers t ts ∧ ∀ b, Covers b ts → b.KeptBy t → b = t := by
  constructor
  · intro ht
    refine ⟨⟨t, ht, .refl t⟩, ?_⟩
    rintro b ⟨s, hs, hsb⟩ hbt
    obtain rfl := h.incomparable s hs t ht (hsb.trans hbt)
    exact hbt.antisymm hsb
  · rintro ⟨⟨s, hs, hst⟩, hmin⟩
    rwa [← hmin s ⟨s, hs, .refl s⟩ hst]

/-- An irredundant list is determined by what it covers. -/
theorem Irredundant.eq_of_covers (ht : Irredundant ts) (hu : Irredundant us)
    (h : ∀ b, Covers b ts ↔ Covers b us) : ts = us := by
  refine ht.increasing.eq_of_mem_iff hu.increasing fun t => ?_
  rw [ht.mem_iff, hu.mem_iff]
  simp only [h]

end Term

end Moore
