import Mathlib.Logic.Basic
import Moore.Expr.NormalForm
import Moore.Proofs.Expr.Substitute
import Moore.Proofs.Expr.Term

/-
# Inputs of transformed expressions

No transform reads an input that the expression does not read.  For the normal forms this is a
property of lists of terms: conjoining two terms and dropping terms bring in no literal
(`mentions_cross`, `mentions_of_minimize`), so every literal of a term goes back to an occurrence
(`mem_occurrences_of_mentions`).

Substitution, in turn, looks at the values of the inputs that the expression reads and at nothing
else of the bindings (`replace_congr`).
-/

namespace Moore

namespace Term

variable {s t u : Term} {ss ts : List Term} {x : String}

/-- Some term of the list has a literal over the input. -/
def Mentions (x : String) (ts : List Term) : Prop :=
  ∃ t ∈ ts, x ∈ t.names

theorem not_mentions_nil : ¬Mentions x [] := by
  simp [Mentions]

theorem mentions_singleton : Mentions x [t] ↔ x ∈ t.names := by
  simp [Mentions]

theorem mentions_flatMap {α : Type} {f : α → List Term} {l : List α} :
    Mentions x (l.flatMap f) ↔ ∃ a ∈ l, Mentions x (f a) := by
  simp only [Mentions, List.mem_flatMap]
  constructor
  · rintro ⟨t, ⟨a, ha, ht⟩, hx⟩
    exact ⟨a, ha, t, ht, hx⟩
  · rintro ⟨a, ha, t, ht, hx⟩
    exact ⟨t, ⟨a, ha, ht⟩, hx⟩

theorem names_opposite (t : Term) : t.opposite.names = t.names := by
  simp [opposite, NameMap.mapValues, NameMap.names]

/-- Reading terms as clauses keeps their inputs. -/
theorem mentions_map_opposite : Mentions x (ts.map opposite) ↔ Mentions x ts := by
  simp only [Mentions, List.mem_map, exists_exists_and_eq_and, names_opposite]

/-- The conjunction of two terms has the inputs of both. -/
theorem mem_names_merge? (h : s.merge? t = some u) (hx : x ∈ u.names) :
    x ∈ s.names ∨ x ∈ t.names := by
  obtain ⟨v, hv⟩ := NameMap.mem_names.1 hx
  rw [get?_merge? h, Option.or_eq_some_iff] at hv
  rcases hv with hv | ⟨-, hv⟩
  · exact .inr (NameMap.mem_names.2 ⟨v, hv⟩)
  · exact .inl (NameMap.mem_names.2 ⟨v, hv⟩)

theorem mentions_cross (h : Mentions x (cross ss ts)) : Mentions x ss ∨ Mentions x ts := by
  obtain ⟨u, hu, hx⟩ := h
  simp only [cross, List.mem_flatMap, List.mem_filterMap] at hu
  obtain ⟨s, hs, t, ht, hmerge⟩ := hu
  exact (mem_names_merge? hmerge hx).imp (fun hx => ⟨s, hs, hx⟩) fun hx => ⟨t, ht, hx⟩

theorem mentions_of_minimize (h : Mentions x (minimize ts)) : Mentions x ts := by
  obtain ⟨t, ht, hx⟩ := h
  exact ⟨t, Ordered.mem_ofList.1 ((sift_sublist [] _).subset ht), hx⟩

end Term

namespace Expr

open Term (Mentions)

variable {e : Expr} {es : List Expr} {op : Connective} {acc : List Term} {neg : Bool}
  {b b' : Bindings} {x : String}

/-! ### Normal forms -/

theorem mentions_productTerms (h : Mentions x (productTerms neg acc es)) :
    Mentions x acc ∨ ∃ e ∈ es, Mentions x (termsWith neg e) := by
  induction es generalizing acc with
  | nil => exact .inl h
  | cons e es ih =>
    simp only [productTerms] at h
    split at h
    · exact absurd h Term.not_mentions_nil
    · rcases ih h with h | ⟨f, hf, h⟩
      · rcases Term.mentions_cross (Term.mentions_of_minimize h) with h | h
        · exact .inl h
        · exact .inr ⟨e, List.mem_cons_self, h⟩
      · exact .inr ⟨f, List.mem_cons_of_mem e hf, h⟩

/-- The literals of the terms are over inputs of the expression. -/
theorem mem_occurrences_of_mentions (h : Mentions x (termsWith neg e)) : x ∈ e.occurrences := by
  induction e generalizing neg with
  | lit v =>
    rw [termsWith] at h
    split at h
    · exact absurd (Term.mentions_singleton.1 h) List.not_mem_nil
    · exact absurd h Term.not_mentions_nil
  | var y => exact Term.mentions_singleton.1 h
  | not e ih => exact (occurrences_not e).symm ▸ ih h
  | nary op es ih =>
    obtain ⟨e, he, hx⟩ : ∃ e ∈ es, Mentions x (termsWith neg e) := by
      rw [termsWith] at h
      split at h
      · exact Term.mentions_flatMap.1 (sumTerms_eq neg es ▸ Term.mentions_of_minimize h)
      · rcases mentions_productTerms h with h | h
        · exact absurd (Term.mentions_singleton.1 h) List.not_mem_nil
        · exact h
    exact mem_occurrences_nary.2 ⟨e, he, ih e he hx⟩

theorem occurrences_literal (l : String × Bool) : (literal l).occurrences = [l.1] := by
  unfold literal
  split <;> simp

theorem mem_occurrences_ofTerms {ts : List Term} :
    x ∈ (ofTerms op ts).occurrences ↔ Mentions x ts := by
  simp only [ofTerms, Mentions, NameMap.names, mem_occurrences_joined, List.mem_map,
    exists_exists_and_eq_and, occurrences_literal, List.mem_singleton, @eq_comm _ x]

theorem inputs_dnf_subset (e : Expr) : e.dnf.inputs ⊆ e.inputs := by
  intro x hx
  rw [mem_inputs] at hx ⊢
  exact mem_occurrences_of_mentions (mem_occurrences_ofTerms.1 hx)

theorem inputs_cnf_subset (e : Expr) : e.cnf.inputs ⊆ e.inputs := by
  intro x hx
  rw [mem_inputs] at hx ⊢
  exact mem_occurrences_of_mentions (Term.mentions_map_opposite.1 (mem_occurrences_ofTerms.1 hx))

/-! ### Simplification and substitution -/

theorem inputs_simplify_subset (e : Expr) : e.simplify.inputs ⊆ e.inputs := by
  intro x hx
  rw [mem_inputs] at hx ⊢
  exact mem_occurrences_of_simplify hx

/-- What bindings leave of an expression reads inputs of it that are not bound. -/
theorem mem_inputs_substitute (h : x ∈ (e.substitute b).inputs) : x ∈ e.inputs ∧ x ∉ b.names := by
  obtain ⟨hx, hnone⟩ := mem_occurrences_replace.1 (mem_inputs.1 (inputs_simplify_subset _ h))
  refine ⟨mem_inputs.2 hx, fun hbound => ?_⟩
  obtain ⟨v, hv⟩ := NameMap.mem_names.1 hbound
  rw [hnone] at hv
  cases hv

/-- Bindings that agree on the inputs of an expression put the same values in. -/
theorem replace_congr (h : ∀ x ∈ e.occurrences, b.get? x = b'.get? x) :
    e.replace b = e.replace b' := by
  induction e with
  | lit v => rfl
  | var x => rw [replace, replace, h x (by simp)]
  | not e ih => rw [replace, replace, ih (by simpa using h)]
  | nary op es ih =>
    rw [replace_nary, replace_nary]
    congr 1
    refine List.map_congr_left fun e he => ih e he fun x hx => ?_
    exact h x (mem_occurrences_nary.2 ⟨e, he, hx⟩)

theorem substitute_congr (h : ∀ x ∈ e.inputs, b.get? x = b'.get? x) :
    e.substitute b = e.substitute b' := by
  rw [substitute, substitute, replace_congr fun x hx => h x (mem_inputs.2 hx)]

/-- Transforms invent no inputs.  What bindings leave of an expression reads none of the inputs
that they bind, simplification and the normal forms read inputs of the expression only, and
bindings that agree on those leave the identical expression, so they also agree on its value. -/
theorem transforms_invent_no_inputs (e : Expr) (b : Bindings) :
    (∀ x ∈ (e.substitute b).inputs, x ∈ e.inputs ∧ x ∉ b.names) ∧
      e.simplify.inputs ⊆ e.inputs ∧ e.dnf.inputs ⊆ e.inputs ∧ e.cnf.inputs ⊆ e.inputs ∧
      ∀ b' : Bindings, (∀ x ∈ e.inputs, b.get? x = b'.get? x) →
        e.substitute b = e.substitute b' ∧ e.evaluate b = e.evaluate b' := by
  refine ⟨fun x => mem_inputs_substitute, inputs_simplify_subset e, inputs_dnf_subset e,
    inputs_cnf_subset e, fun b' h => ?_⟩
  have heq : e.substitute b = e.substitute b' := substitute_congr h
  exact ⟨heq, by rw [evaluate, evaluate, heq]⟩

/-- The second input is not bound by either, and the condition does not read the third. -/
theorem unread_binding_ignored :
    let e : Expr := nary .or [nary .and [var "go", var "halt"], not (var "go")]
    let b : Bindings := NameMap.ofList [("go", true)]
    let b' : Bindings := NameMap.ofList [("go", true), ("reset", false)]
    b ≠ b' ∧ (∀ x ∈ e.inputs, b.get? x = b'.get? x) ∧ e.substitute b = var "halt" ∧
      e.substitute b' = var "halt" := by
  intro e b b'
  have hagree : ∀ x ∈ e.inputs, b.get? x = b'.get? x := by decide
  have hleft : e.substitute b = var "halt" := by decide
  obtain ⟨-, -, -, -, hcongr⟩ := transforms_invent_no_inputs e b
  exact ⟨by decide, hagree, hleft, (hcongr b' hagree).1 ▸ hleft⟩

end Expr

end Moore
