import Mathlib.Data.List.Perm.Subperm
import Moore.Proofs.Expr.Lowering
import Moore.Proofs.Expr.Order
import Moore.Proofs.Expr.Simplify
import Moore.Proofs.Ordered

/-
# The shape of simplified expressions

`Normal` says what a simplified expression looks like: the operands of each of its nodes
strictly increase, none is a constant or a node of the same connective, none stands beside
its negation, and none has strictly more operands under the dual connective than another
(`Reduced`).

One pass is enough to reach this shape (`normal_simplify`).  What opening a node brings up
was reduced already, so `collect` gives plain operands; absorption only drops some of them;
and a single operand that is left is normal itself.  On the other hand no law applies to a
normal expression (`simplify_of_normal`), so simplifying again changes nothing.
-/

namespace Moore.Expr

variable {e f x : Expr} {op : Connective} {es : List Expr}

/-- The expression may stand in a node of the connective: it is neither a constant nor a
node of the connective itself. -/
def Plain (op : Connective) (e : Expr) : Prop :=
  (∀ b, e ≠ lit b) ∧ ∀ es, e ≠ nary op es

/-- Operands of a node to which no law applies. -/
structure Reduced (op : Connective) (es : List Expr) : Prop where
  increasing : Ordered.Strict cmp es
  plain : ∀ e ∈ es, Plain op e
  consistent : ∀ e ∈ es, not e ∉ es
  /-- No operand has strictly more operands under the dual connective than another. -/
  incomparable : ∀ e ∈ es, ∀ f ∈ es,
    ¬(operandsOf op.dual e ⊆ operandsOf op.dual f ∧ ¬operandsOf op.dual f ⊆ operandsOf op.dual e)

/-- An expression in which nothing is left to simplify. -/
inductive Normal : Expr → Prop where
  | lit (b : Bool) : Normal (lit b)
  | var (x : String) : Normal (var x)
  | not {e : Expr} : Normal e → (∀ b, e ≠ lit b) → (∀ f, e ≠ not f) → Normal (not e)
  | nary {op : Connective} {es : List Expr} :
      2 ≤ es.length → Reduced op es → (∀ e ∈ es, Normal e) → Normal (nary op es)

/-! ### Operands of normal expressions -/

theorem Plain.operandsOf_eq (h : Plain op e) : operandsOf op e = [e] :=
  (operandsOf_cases op e).resolve_left (h.2 _)

theorem ne_not_self (e : Expr) : e ≠ not e := by
  intro h
  have hsize := congrArg sizeOf h
  simp at hsize

theorem reduced_nil (op : Connective) : Reduced op [] where
  increasing := .nil
  plain := List.forall_mem_nil _
  consistent := List.forall_mem_nil _
  incomparable := List.forall_mem_nil _

theorem reduced_singleton (h : Plain op e) : Reduced op [e] where
  increasing := List.pairwise_singleton _ _
  plain := List.forall_mem_singleton.2 h
  consistent := by
    simpa using (ne_not_self e).symm
  incomparable := by
    simp

theorem Normal.of_mem_operandsOf (h : e.Normal) (hx : x ∈ operandsOf op e) : x.Normal := by
  rcases operandsOf_cases op e with he | he
  · rw [he] at h
    cases h with
    | nary _ _ hes => exact hes x hx
  · rw [he, List.mem_singleton] at hx
    exact hx ▸ h

/-- The operands of a normal expression that is no constant are reduced. -/
theorem Normal.reduced_operandsOf (h : e.Normal) (hlit : ∀ b, e ≠ .lit b) (op : Connective) :
    Reduced op (operandsOf op e) := by
  by_cases hop : ∃ es, e = .nary op es
  · obtain ⟨es, rfl⟩ := hop
    cases h with
    | nary _ hes _ => simpa [operandsOf] using hes
  · have hplain : Plain op e := ⟨hlit, fun es he => hop ⟨es, he⟩⟩
    rw [hplain.operandsOf_eq]
    exact reduced_singleton hplain

theorem Normal.strict_operandsOf (h : e.Normal) (op : Connective) :
    Ordered.Strict cmp (operandsOf op e) := by
  by_cases hlit : ∃ b, e = .lit b
  · obtain ⟨b, rfl⟩ := hlit
    exact List.pairwise_singleton _ _
  · exact (h.reduced_operandsOf (fun b hb => hlit ⟨b, hb⟩) op).increasing

/-- Between normal expressions, having fewer operands is having strictly fewer. -/
theorem Normal.absorbs_iff (he : e.Normal) (hf : f.Normal) : absorbs op e f = true ↔
    operandsOf op.dual e ⊆ operandsOf op.dual f ∧
      ¬operandsOf op.dual f ⊆ operandsOf op.dual e := by
  rw [Expr.absorbs_iff, and_comm]
  refine and_congr_right fun hsub => ?_
  have hperm : (operandsOf op.dual e).Subperm (operandsOf op.dual f) :=
    (he.strict_operandsOf op.dual).nodup.subperm hsub
  constructor
  · intro hlt hsup
    have hle := ((hf.strict_operandsOf op.dual).nodup.subperm hsup).length_le
    omega
  · intro hsup
    by_contra hle
    exact hsup (hperm.perm_of_length_le (Nat.le_of_not_lt hle)).symm.subset

theorem Normal.joined (hes : Reduced op es) (h : ∀ e ∈ es, e.Normal) :
    (joined op es).Normal := by
  match es with
  | [] => exact .lit op.unit
  | [e] => exact h e (List.mem_singleton_self e)
  | _ :: _ :: _ => exact .nary (by simp) hes h

/-! ### Simplified expressions are normal -/

/-- What `collect` keeps of normal operands is normal and plain. -/
theorem Normal.of_mem_collect (h : ∀ e ∈ es, e.Normal) (hx : x ∈ collect op es) :
    x.Normal ∧ Plain op x := by
  obtain ⟨e, he, hlit, hxe⟩ := mem_collect.1 hx
  exact ⟨(h e he).of_mem_operandsOf hxe, ((h e he).reduced_operandsOf hlit op).plain x hxe⟩

theorem strict_collect (op : Connective) (es : List Expr) : Ordered.Strict cmp (collect op es) :=
  Ordered.strict_ofList _

theorem hasComplement_eq_true_iff : hasComplement es = true ↔ ∃ e ∈ es, not e ∈ es := by
  simp only [hasComplement, List.any_eq_true]
  constructor
  · rintro ⟨f, hf, he⟩
    cases f with
    | lit | var | nary => simp at he
    | not e => exact ⟨e, by simpa using he, hf⟩
  · rintro ⟨e, he, hnot⟩
    exact ⟨not e, hnot, by simpa using he⟩

theorem mem_absorb : x ∈ absorb op es ↔ x ∈ es ∧ ∀ e ∈ es, absorbs op e x = false := by
  simp [absorb]

/-- Absorption leaves reduced operands. -/
theorem reduced_absorb (hinc : Ordered.Strict cmp es) (hcomp : hasComplement es = false)
    (h : ∀ e ∈ es, e.Normal ∧ Plain op e) : Reduced op (absorb op es) := by
  have hmem : ∀ e ∈ absorb op es, e ∈ es ∧ ∀ f ∈ es, absorbs op f e = false := fun e he =>
    mem_absorb.1 he
  exact {
    increasing := hinc.filter _
    plain := fun e he => (h e (hmem e he).1).2
    consistent := by
      intro e he hnot
      rw [Bool.eq_false_iff, ne_eq, hasComplement_eq_true_iff] at hcomp
      exact hcomp ⟨e, (hmem e he).1, (hmem _ hnot).1⟩
    incomparable := by
      intro e he f hf hlt
      have hen := (h e (hmem e he).1).1
      have hfn := (h f (hmem f hf).1).1
      have habs := (hmem f hf).2 e (hmem e he).1
      rw [(hen.absorbs_iff hfn).2 hlt] at habs
      cases habs }

/-- So are the operands that a node of normal operands is left with plain. -/
theorem plain_of_mem_kept (h : ∀ e ∈ es, e.Normal) : ∀ x ∈ absorb op (collect op es), Plain op x :=
  fun _ hx => (Normal.of_mem_collect h (mem_absorb.1 hx).1).2

theorem Normal.simplifyNode (h : ∀ e ∈ es, e.Normal) : (simplifyNode op es).Normal := by
  simp only [Expr.simplifyNode]
  split
  · exact .lit op.zero
  · next hdecided =>
    have hcomp : hasComplement (collect op es) = false := by
      simp only [Bool.or_eq_true, not_or, Bool.not_eq_true] at hdecided
      exact hdecided.2
    refine .joined ?_ fun e he => ?_
    · exact reduced_absorb (strict_collect op es) hcomp fun e he => Normal.of_mem_collect h he
    · exact (Normal.of_mem_collect h (List.mem_filter.1 he).1).1

theorem Normal.negated (h : e.Normal) : (negated e).Normal := by
  cases h with
  | lit b => exact .lit !b
  | var x => exact .not (.var x) (by simp) (by simp)
  | not h _ _ => exact h
  | nary hlen hes h => exact .not (.nary hlen hes h) (by simp) (by simp)

/-- One pass over an expression makes it normal. -/
theorem normal_simplify (e : Expr) : e.simplify.Normal := by
  induction e with
  | lit b => simpa using Normal.lit b
  | var x => simpa using Normal.var x
  | not e ih =>
    rw [simplify_not]
    exact ih.negated
  | nary op es ih =>
    rw [simplify_nary]
    refine Normal.simplifyNode fun e he => ?_
    obtain ⟨f, hf, rfl⟩ := List.mem_map.1 he
    exact ih f hf

/-! ### Normal expressions stay as they are -/

theorem Reduced.collect_eq (h : Reduced op es) : collect op es = es := by
  refine (strict_collect op es).eq_of_mem_iff h.increasing fun x => ?_
  rw [mem_collect]
  constructor
  · rintro ⟨e, he, -, hx⟩
    rw [(h.plain e he).operandsOf_eq, List.mem_singleton] at hx
    exact hx ▸ he
  · intro hx
    exact ⟨x, hx, (h.plain x hx).1, by simp [(h.plain x hx).operandsOf_eq]⟩

theorem Reduced.hasComplement_eq (h : Reduced op es) : hasComplement es = false := by
  rw [Bool.eq_false_iff, ne_eq, hasComplement_eq_true_iff]
  rintro ⟨e, he, hnot⟩
  exact h.consistent e he hnot

theorem Reduced.absorbs_eq_false (h : Reduced op es) (hn : ∀ e ∈ es, e.Normal) (he : e ∈ es)
    (hf : f ∈ es) : absorbs op e f = false := by
  rw [Bool.eq_false_iff, ne_eq, (hn e he).absorbs_iff (hn f hf)]
  exact h.incomparable e he f hf

theorem Reduced.absorb_eq (h : Reduced op es) (hn : ∀ e ∈ es, e.Normal) : absorb op es = es := by
  refine List.filter_eq_self.2 fun f hf => ?_
  rw [Bool.not_eq_true', List.any_eq_false]
  intro e he
  rw [h.absorbs_eq_false hn he hf]
  exact Bool.false_ne_true

theorem simplifyNode_of_zero_mem (h : lit op.zero ∈ es) : simplifyNode op es = lit op.zero := by
  simp [simplifyNode, h]

theorem simplifyNode_eq_joined (hzero : lit op.zero ∉ es)
    (hcomp : hasComplement (collect op es) = false) :
    simplifyNode op es = joined op (absorb op (collect op es)) := by
  simp [simplifyNode, hzero, hcomp]

/-- A node that collects reduced operands is these operands joined. -/
theorem Reduced.simplifyNode_eq {fs : List Expr} (h : Reduced op fs) (hn : ∀ e ∈ fs, e.Normal)
    (hcollect : collect op es = fs) (hzero : lit op.zero ∉ es) :
    simplifyNode op es = Expr.joined op fs := by
  have hcomp : hasComplement (collect op es) = false := by
    rw [hcollect, h.hasComplement_eq]
  rw [simplifyNode_eq_joined hzero hcomp, hcollect, h.absorb_eq hn]

/-- No law applies to a normal expression. -/
theorem simplify_of_normal (h : e.Normal) : e.simplify = e := by
  induction h with
  | lit b => exact simplify_lit b
  | var x => exact simplify_var x
  | @not e _ hlit hnot ih =>
    rw [simplify_not, ih]
    cases e with
    | lit b => exact absurd rfl (hlit b)
    | not f => exact absurd rfl (hnot f)
    | var | nary => rfl
  | @nary op es hlen hes hn ih =>
    have hmap : es.map simplify = es := (List.map_congr_left ih).trans (List.map_id' es)
    have hzero : lit op.zero ∉ es := fun hmem => (hes.plain _ hmem).1 op.zero rfl
    rw [simplify_nary, hmap, hes.simplifyNode_eq hn hes.collect_eq hzero]
    match es with
    | _ :: _ :: _ => rfl

theorem simplify_simplify (e : Expr) : e.simplify.simplify = e.simplify :=
  simplify_of_normal (normal_simplify e)

theorem simplify_eq_self_iff : e.simplify = e ↔ e.Normal :=
  ⟨fun h => h ▸ normal_simplify e, simplify_of_normal⟩

instance : DecidablePred Normal := fun _ => decidable_of_iff _ simplify_eq_self_iff

theorem Normal.proper (h : e.Normal) : e.Proper := by
  induction h with
  | lit b => exact .lit b
  | var x => exact .var x
  | not _ _ _ ih => exact .not ih
  | nary hlen _ _ ih => exact .nary hlen ih

/-- Simplification is one pass to a normal form: what it returns is normal, it leaves alone
exactly the normal expressions, and so a second pass changes nothing.  In particular a
simplified expression has a relational text, whatever the operand counts of its nodes were. -/
theorem simplify_reaches_normal_form (e : Expr) :
    e.simplify.Normal ∧ (e.simplify = e ↔ e.Normal) ∧ e.simplify.simplify = e.simplify ∧
      ∃ t, e.simplify.relational = .ok t :=
  ⟨normal_simplify e, simplify_eq_self_iff, simplify_simplify e,
    exists_relational_iff.2 (normal_simplify e).proper⟩

/-- A normal expression need not be canonical: no assignment makes this one true. -/
example :
    (nary .and [var "a", var "b", not (nary .and [var "a", var "b"])]).Normal := by
  decide

end Moore.Expr
