import Moore.Graph
import Moore.Proofs.Condition
import Moore.Proofs.Expr.Forced
import Moore.Proofs.Expr.Normal

/-
# What further bindings decide

A value that bindings give to a condition holds under all assignments that extend them, and
further bindings leave some of these.  So further bindings never give the other value; they
may give none, since simplification does not recognise every tautology and a replaced input
can leave a form in which it misses one that it has found before.

A value is kept if it follows from the bound inputs by the truth tables of the connectives
(`Forced`), which is monotone in the bindings.  If no input occurs both plain and negated,
every value is of this kind (`forced_of_unate`): the assignment that sets every occurrence
against the value leaves it to the bound inputs alone.
-/

namespace Moore

namespace Expr

variable {b b' : Bindings} {σ : String → Bool} {e : Expr} {v : Bool}

/-- The input occurs plain, under an even number of negations, or negated, under an odd
number. -/
inductive Uses (x : String) : (plain : Bool) → Expr → Prop where
  | var : Uses x true (var x)
  | not {plain : Bool} {e : Expr} : Uses x plain e → Uses x (!plain) (not e)
  | nary {plain : Bool} {op : Connective} {es : List Expr} {e : Expr} :
      e ∈ es → Uses x plain e → Uses x plain (nary op es)

/-- No input occurs both plain and negated. -/
def Unate (e : Expr) : Prop :=
  ∀ x, ¬(Uses x true e ∧ Uses x false e)

/-! ### Forced values -/

theorem simplifyNode_of_units {op : Connective} {es : List Expr}
    (h : ∀ e ∈ es, e = lit op.unit) : simplifyNode op es = lit op.unit := by
  have hcollect : collect op es = [] := by
    rw [List.eq_nil_iff_forall_not_mem]
    intro x hx
    obtain ⟨e, he, hlit, -⟩ := mem_collect.1 hx
    exact hlit _ (h e he)
  have hzero : lit op.zero ∉ es := by
    intro hmem
    have hunit : op.zero = op.unit := lit.inj (h _ hmem)
    exact Connective.ne_zero_iff.2 rfl hunit.symm
  rw [(reduced_nil op).simplifyNode_eq (List.forall_mem_nil _) hcollect hzero, joined_nil]

/-- Simplification finds the values that are forced. -/
theorem Forced.evaluate_eq (h : Forced b e v) : e.evaluate b = some v := by
  rw [evaluate_eq_some_iff, substitute]
  induction h with
  | lit v => simp [replace]
  | var hx => simp [replace, hx]
  | not _ ih => rw [replace, simplify_not, ih, negated]
  | @zero op es e he _ ih =>
    have hmem : Expr.lit op.zero ∈ (es.map (replace b)).map simplify :=
      List.mem_map.2 ⟨_, List.mem_map_of_mem he, ih⟩
    rw [replace_nary, simplify_nary, simplifyNode_of_zero_mem hmem]
  | unit _ ih =>
    rw [replace_nary, simplify_nary]
    refine simplifyNode_of_units fun f hf => ?_
    rw [List.map_map] at hf
    obtain ⟨e, he, rfl⟩ := List.mem_map.1 hf
    exact ih e he

/-- A value that is reached although every occurrence of an input is set against it is
forced. -/
theorem forced_of_adverse (hσ : ∀ x plain, Uses x plain e → σ x = (plain != v))
    (h : e.eval (b.override σ) = v) : Forced b e v := by
  induction e generalizing v with
  | lit w =>
    obtain rfl : w = v := by simpa using h
    exact .lit w
  | var x =>
    cases hx : b.get? x with
    | some w =>
      obtain rfl : w = v := by simpa [NameMap.override, hx] using h
      exact .var hx
    | none =>
      -- The only occurrence is set against the value that it would have to give.
      have hval : σ x = v := by simpa [NameMap.override, hx] using h
      have hadverse := hσ x true .var
      rw [hval] at hadverse
      cases v <;> cases hadverse
  | not e ih =>
    have hval : e.eval (b.override σ) = !v := by simpa using congrArg (!·) h
    rw [← Bool.not_not v]
    refine .not (ih (fun x plain hx => ?_) hval)
    rw [hσ x (!plain) (.not hx)]
    cases plain <;> cases v <;> rfl
  | nary op es ih =>
    have hes : ∀ e ∈ es, ∀ x plain, Uses x plain e → σ x = (plain != v) := fun e he x plain hx =>
      hσ x plain (.nary he hx)
    by_cases hv : v = op.zero
    · subst hv
      obtain ⟨e, he, hz⟩ := eval_nary_eq_zero_iff.1 h
      exact .zero he (ih e he (hes e he) hz)
    · obtain rfl := Connective.ne_zero_iff.1 hv
      exact .unit fun e he => ih e he (hes e he) (eval_nary_eq_unit_iff.1 h e he)

/-- Without an input that occurs both ways, only the bound inputs can have decided. -/
theorem forced_of_unate (hu : e.Unate) (h : e.evaluate b = some v) : Forced b e v := by
  classical
  -- An input that is used plain gets the other value, and one that is used negated this one.
  let σ : String → Bool := fun x => if Uses x true e then !v else v
  refine forced_of_adverse (σ := σ) (fun x plain hx => ?_)
    (eval_of_evaluate h (NameMap.extendedBy_override b σ))
  cases plain with
  | true => simp [σ, hx]
  | false =>
    have hplain : ¬Uses x true e := fun hpos => hu x ⟨hpos, hx⟩
    simp [σ, hplain]

/-! ### Values under further bindings -/

/-- Further bindings do not give the other value. -/
theorem evaluate_of_keptBy (hb : b.KeptBy b') (h : e.evaluate b = some v) :
    e.evaluate b' = some v ∨ e.evaluate b' = none := by
  cases hb' : e.evaluate b' with
  | none => exact .inr rfl
  | some w =>
    have hσ : b'.ExtendedBy (b'.override fun _ => false) := b'.extendedBy_override _
    have hvw : w = v := (eval_of_evaluate hb' hσ).symm.trans (eval_of_evaluate h (hb.extendedBy hσ))
    exact .inl (congrArg some hvw)

/-- The value of an expression under the first bindings does not depend on what
simplification recognises: the second bind all inputs, the first force the value, or no
input occurs both plain and negated. -/
def Settled (b b' : Bindings) (e : Expr) (v : Bool) : Prop :=
  (∀ x ∈ e.inputs, x ∈ b'.names) ∨ Forced b e v ∨ e.Unate

/-- Settled values are kept. -/
theorem Settled.evaluate_eq (hs : Settled b b' e v) (hb : b.KeptBy b')
    (h : e.evaluate b = some v) : e.evaluate b' = some v := by
  rcases hs with hbound | hforced | hunate
  · have hσ : b.ExtendedBy (b'.override fun _ => false) :=
      hb.extendedBy (b'.extendedBy_override _)
    rw [evaluate_of_bound hbound fun _ => false, eval_of_evaluate h hσ]
  · exact (hforced.mono hb).evaluate_eq
  · exact ((forced_of_unate hunate h).mono hb).evaluate_eq

end Expr

theorem Edges.mem_enabled {b : Bindings} {es : List Edge} {t : Edge} :
    t ∈ enabled b es ↔ t ∈ es ∧ t.condition.evaluate b = some true := by
  rw [enabled, List.mem_filter, Condition.isSatisfiedBy_iff]

/-- Further bindings never reverse the value of an expression: they give the same value or
none, and the same if it is settled.  So a transition that is enabled stays enabled, or its
condition is open again, which it is not if its being true is settled. -/
theorem further_bindings_never_reverse {b b' : Bindings} (hb : b.KeptBy b') :
    (∀ (e : Expr) (v : Bool), e.evaluate b = some v →
      (e.evaluate b' = some v ∨ e.evaluate b' = none) ∧
        (e.Settled b b' v → e.evaluate b' = some v)) ∧
    ∀ (s : Store) (set : TransitionSet), ∀ t ∈ Edges.enabled b (s.edges set),
      (t ∈ Edges.enabled b' (s.edges set) ∨ t.condition.evaluate b' = none) ∧
        (t.condition.Settled b b' true → t ∈ Edges.enabled b' (s.edges set)) := by
  refine ⟨fun e v h => ⟨Expr.evaluate_of_keptBy hb h, fun hs => hs.evaluate_eq hb h⟩, ?_⟩
  intro s set t ht
  simp only [Edges.mem_enabled] at ht ⊢
  obtain ⟨hmem, htrue⟩ := ht
  refine ⟨?_, fun hs => ⟨hmem, hs.evaluate_eq hb htrue⟩⟩
  exact (Expr.evaluate_of_keptBy hb htrue).imp_left fun h => ⟨hmem, h⟩

/-- One bound input forces a disjunction, and the transition stays enabled when the other
input becomes known. -/
theorem forced_guard_stays_enabled :
    let e : Expr := .nary .or [.var "go", .not (.var "halt")]
    let b : Bindings := NameMap.ofList [("go", true)]
    let b' : Bindings := NameMap.ofList [("go", true), ("halt", true)]
    let a : State := ⟨"a", ∅, false⟩
    let s : Store := ⟨[a], [⟨⟨0⟩, ⟨0⟩, e⟩]⟩
    let loop : Edge := ⟨⟨0⟩, ⟨⟨0⟩, a⟩, ⟨⟨0⟩, a⟩, e⟩
    let set : TransitionSet := HandleSet.ofList [⟨0⟩]
    b.KeptBy b' ∧ e.evaluate b = some true ∧ e.Settled b b' true ∧ e.evaluate b' = some true ∧
      loop ∈ Edges.enabled b (s.edges set) ∧ loop ∈ Edges.enabled b' (s.edges set) := by
  intro e b b' a s loop set
  have hb : b.KeptBy b' := by
    have hsub : b.entries ⊆ b'.entries := by decide
    intro x v hx
    rw [NameMap.get?_eq_some_iff] at hx ⊢
    exact hsub hx
  have he : e.evaluate b = some true := by decide
  have hs : e.Settled b b' true := .inr (.inl (.zero List.mem_cons_self (.var (by decide))))
  have ht : loop ∈ Edges.enabled b (s.edges set) := by decide
  obtain ⟨hvalue, henabled⟩ := further_bindings_never_reverse hb
  exact ⟨hb, he, hs, (hvalue e true he).2 hs, ht, (henabled s set loop ht).2 hs⟩

/-- Here `x | p & q` absorbs a wider disjunction and is then opened beside `!x`.  Once `s` is
known the wider disjunction is `x | p`, and neither absorbs the other, so that a transition
that was enabled without any bindings is enabled no longer. -/
theorem narrowed_operand_hides_tautology :
    let inner : Expr := .nary .and [.var "p", .var "q"]
    let e : Expr := .nary .or [.not (.var "x"), .nary .and [.nary .or [.var "x", inner],
      .nary .or [.var "x", inner, .nary .and [.var "p", .var "s"]]]]
    let b : Bindings := ∅
    let b' : Bindings := NameMap.ofList [("s", true)]
    let s : Store := ⟨[⟨"a", ∅, false⟩], [⟨⟨0⟩, ⟨0⟩, e⟩]⟩
    let loop : TransitionSet := HandleSet.ofList [⟨0⟩]
    b.KeptBy b' ∧ e.evaluate b = some true ∧ e.evaluate b' = none ∧
      (Edges.enabled b (s.edges loop)).map (·.id) = [⟨0⟩] ∧
      (Edges.enabled b' (s.edges loop)).map (·.id) = [] := by
  intro inner e b b' s loop
  have hb : b.KeptBy b' := by
    intro x v hx
    simp [b] at hx
  exact ⟨hb, by decide, by decide, by decide, by decide⟩

end Moore
