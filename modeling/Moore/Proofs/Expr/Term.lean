import Moore.Expr.Term
import Moore.Proofs.Assignment

/-
# Terms under bindings

A list of terms covers the bindings that hold all literals of one of its terms (`Covers`).
`merge?`, `minimize` and `cross` do to this meaning what their names say: two terms are
conjoined or contradict each other, a minimized list covers what the list did, and a cross
product covers what both of its lists do.  A list of terms holds under some assignment unless
it is empty (`Holds`), because no term contradicts itself.
-/

namespace Moore.Term

variable {b : NameMap Bool} {σ : String → Bool} {s t u : Term} {ss ts : List Term}

/-- The bindings hold all literals of some term of the list. -/
def Covers (b : NameMap Bool) (ts : List Term) : Prop :=
  ∃ t ∈ ts, t.KeptBy b

/-- Some term of the list holds under the assignment. -/
def Holds (σ : String → Bool) (ts : List Term) : Prop :=
  ∃ t ∈ ts, t.ExtendedBy σ

/-! ### One term -/

theorem keptBy_single {x : String} {p : Bool} : (single x p).KeptBy b ↔ b.get? x = some p := by
  simp [NameMap.keptBy_iff_entries, single]

theorem extendedBy_opposite : t.opposite.ExtendedBy σ ↔ ∀ l ∈ t.entries, σ l.1 = !l.2 := by
  simp only [NameMap.extendedBy_iff_entries, opposite, NameMap.mapValues, List.forall_mem_map]

theorem opposite_opposite (t : Term) : t.opposite.opposite = t := by
  apply NameMap.ext
  simp [opposite, NameMap.mapValues, Function.comp_def]

theorem isSubterm_iff : s.isSubterm t = true ↔ s.KeptBy t := by
  simp [isSubterm, NameMap.keptBy_iff_entries]

/-! ### Conjunction of two terms -/

theorem conflict_iff :
    s.conflict t = true ↔ ∃ x v, t.get? x = some v ∧ s.get? x = some (!v) := by
  simp only [conflict, List.any_eq_true, decide_eq_true_eq]
  constructor
  · rintro ⟨l, hl, hs⟩
    exact ⟨l.1, l.2, NameMap.get?_eq_some_iff.2 hl, hs⟩
  · rintro ⟨x, v, ht, hs⟩
    exact ⟨(x, v), NameMap.get?_eq_some_iff.1 ht, hs⟩

theorem not_conflict_of_merge? (h : s.merge? t = some u) : ¬s.conflict t = true := by
  intro hc
  simp [merge?, hc] at h

/-- Terms that are parts of the same bindings have a conjunction. -/
theorem exists_merge? (hs : s.KeptBy b) (ht : t.KeptBy b) : ∃ u, s.merge? t = some u := by
  have hc : ¬s.conflict t = true := by
    rw [conflict_iff]
    rintro ⟨x, v, htx, hsx⟩
    have hv : some v = some !v := (ht x v htx).symm.trans (hs x (!v) hsx)
    simp at hv
  exact ⟨_, if_neg hc⟩

theorem get?_merge? (h : s.merge? t = some u) (x : String) :
    u.get? x = (t.get? x).or (s.get? x) := by
  rw [merge?, if_neg (not_conflict_of_merge? h)] at h
  cases h
  exact NameMap.get?_foldl_insert t.sorted s x

/-- Where two terms agree, both sides of their conjunction can be read off from it. -/
theorem get?_or_of_merge? (h : s.merge? t = some u) (x : String) :
    (t.get? x).or (s.get? x) = (s.get? x).or (t.get? x) := by
  cases htx : t.get? x with
  | none => simp
  | some v =>
    cases hsx : s.get? x with
    | none => simp
    | some w =>
      have hne : w ≠ !v := by
        rintro rfl
        exact not_conflict_of_merge? h (conflict_iff.2 ⟨x, v, htx, hsx⟩)
      have hwv : w = v := Bool.not_eq_not.1 hne
      simp [hwv]

/-- The conjunction of two terms is part of what both are part of. -/
theorem keptBy_of_merge? (h : s.merge? t = some u) :
    u.KeptBy b ↔ s.KeptBy b ∧ t.KeptBy b := by
  constructor
  · intro hu
    constructor
    · intro x v hx
      apply hu
      rw [get?_merge? h, get?_or_of_merge? h, hx, Option.some_or]
    · intro x v hx
      apply hu
      rw [get?_merge? h, hx, Option.some_or]
  · rintro ⟨hs, ht⟩ x v hx
    rw [get?_merge? h, Option.or_eq_some_iff] at hx
    rcases hx with hx | ⟨-, hx⟩
    · exact ht x v hx
    · exact hs x v hx

/-! ### Lists of terms -/

theorem not_covers_nil : ¬Covers b [] := by
  simp [Covers]

theorem covers_singleton : Covers b [t] ↔ t.KeptBy b := by
  simp [Covers]

theorem not_holds_nil : ¬Holds σ [] := by
  simp [Holds]

/-- A list of terms that never holds is empty, since every term holds somewhere. -/
theorem eq_nil_of_forall_not_holds (h : ∀ σ, ¬Holds σ ts) : ts = [] := by
  cases ts with
  | nil => rfl
  | cons t ts =>
    exact absurd ⟨t, by simp, NameMap.extendedBy_override t fun _ => false⟩ (h _)

instance : Std.LawfulEqCmp cmpLiteral where
  compare_self := by simp [cmpLiteral]
  eq_of_compare h := by
    simp only [cmpLiteral, Ordering.then_eq_eq, Std.LawfulEqCmp.compare_eq_iff_eq] at h
    exact Prod.ext h.1 h.2

instance : Std.LawfulEqCmp cmp where
  compare_self := by simp [cmp, Std.ReflCmp.compare_self]
  eq_of_compare h := by
    simp only [cmp, Ordering.then_eq_eq] at h
    exact NameMap.ext (Std.LawfulEqCmp.eq_of_compare h.2)

theorem sift_sublist (kept ts : List Term) : (sift kept ts).Sublist ts := by
  induction ts generalizing kept with
  | nil => exact .slnil
  | cons u us ih =>
    simp only [sift]
    split
    · exact (ih kept).cons u
    · exact (ih (u :: kept)).cons_cons u

/-- Every term that is sifted contains one of those kept before or now. -/
theorem exists_isSubterm_of_sift (kept : List Term) (h : t ∈ ts) :
    ∃ k, (k ∈ kept ∨ k ∈ sift kept ts) ∧ k.isSubterm t = true := by
  induction ts generalizing kept with
  | nil => simp at h
  | cons u us ih =>
    simp only [sift]
    split
    · next hany =>
      rcases List.mem_cons.1 h with rfl | h
      · obtain ⟨k, hk, hsub⟩ := List.any_eq_true.1 hany
        exact ⟨k, .inl hk, hsub⟩
      · exact ih kept h
    · rcases List.mem_cons.1 h with rfl | h
      · exact ⟨t, .inr (by simp), isSubterm_iff.2 (.refl t)⟩
      · obtain ⟨k, hk, hsub⟩ := ih (u :: kept) h
        refine ⟨k, ?_, hsub⟩
        rcases hk with hk | hk
        · rcases List.mem_cons.1 hk with rfl | hk
          · exact .inr (by simp)
          · exact .inl hk
        · exact .inr (List.mem_cons_of_mem _ hk)

theorem covers_flatMap {α : Type} {f : α → List Term} {l : List α} :
    Covers b (l.flatMap f) ↔ ∃ a ∈ l, Covers b (f a) := by
  simp only [Covers, List.mem_flatMap]
  constructor
  · rintro ⟨t, ⟨a, ha, ht⟩, hb⟩
    exact ⟨a, ha, t, ht, hb⟩
  · rintro ⟨a, ha, t, ht, hb⟩
    exact ⟨t, ⟨a, ha, ht⟩, hb⟩

/-- A minimized list covers what the list does. -/
theorem covers_minimize : Covers b (minimize ts) ↔ Covers b ts := by
  constructor
  · rintro ⟨t, ht, hb⟩
    exact ⟨t, Ordered.mem_ofList.1 ((sift_sublist [] _).subset ht), hb⟩
  · rintro ⟨t, ht, hb⟩
    have hsorted : t ∈ Ordered.ofList cmp ts := Ordered.mem_ofList.2 ht
    obtain ⟨k, hk, hsub⟩ := exists_isSubterm_of_sift [] hsorted
    exact ⟨k, by simpa [minimize] using hk, (isSubterm_iff.1 hsub).trans hb⟩

/-- A cross product covers what both lists do: contradictory pairs, which it leaves out, are
parts of no bindings. -/
theorem covers_cross : Covers b (cross ss ts) ↔ Covers b ss ∧ Covers b ts := by
  simp only [Covers, cross, List.mem_flatMap, List.mem_filterMap]
  constructor
  · rintro ⟨u, ⟨s, hs, t, ht, hu⟩, hb⟩
    obtain ⟨hsb, htb⟩ := (keptBy_of_merge? hu).1 hb
    exact ⟨⟨s, hs, hsb⟩, ⟨t, ht, htb⟩⟩
  · rintro ⟨⟨s, hs, hsb⟩, ⟨t, ht, htb⟩⟩
    obtain ⟨u, hu⟩ := exists_merge? hsb htb
    exact ⟨u, ⟨s, hs, t, ht, hu⟩, (keptBy_of_merge? hu).2 ⟨hsb, htb⟩⟩

end Moore.Term
