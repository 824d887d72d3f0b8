import Mathlib.Data.List.Perm.Subperm
import Moore.Proofs.Assignment

/-
# Maps of names as finite functions

A map holds its entries in the order of their names, so it is determined by its values
(`ext_get?`), and it is the map of its entries in whatever order these come (`ofList_perm`).
Updating one map by another one is associative and makes the values of the second hide those of
the first (`get?_updatedBy`).
-/

namespace Moore.NameMap

variable {β : Type} {m n : NameMap β}

/-- The entries of both maps; where both bind a name, the second counts. -/
def updatedBy (m n : NameMap β) : NameMap β :=
  n.entries.foldl (fun m e => m.insert e.1 e.2) m

/-! ### Parts of maps -/

theorem nodup_entries (m : NameMap β) : m.entries.Nodup := by
  refine m.sorted.imp ?_
  rintro a _ hlt rfl
  exact String.lt_irrefl a.1 hlt

theorem nodup_names (m : NameMap β) : m.names.Nodup := by
  unfold names List.Nodup
  rw [List.pairwise_map]
  refine m.sorted.imp ?_
  intro a b hlt heq
  exact String.lt_irrefl b.1 (heq ▸ hlt)

theorem KeptBy.subset (h : m.KeptBy n) : m.entries ⊆ n.entries := fun l hl =>
  get?_eq_some_iff.1 (h l.1 l.2 (get?_eq_some_iff.2 hl))

theorem KeptBy.size_le (h : m.KeptBy n) : m.size ≤ n.size :=
  (m.nodup_entries.subperm h.subset).length_le

/-- A part with as many entries is the whole. -/
theorem KeptBy.eq_of_size_le (h : m.KeptBy n) (hsize : n.size ≤ m.size) : m = n := by
  have hperm : m.entries.Perm n.entries :=
    (m.nodup_entries.subperm h.subset).perm_of_length_le hsize
  refine ext (hperm.eq_of_pairwise ?_ m.sorted n.sorted)
  intro a b _ _ hab hba
  exact absurd (String.lt_trans hab hba) (String.lt_irrefl a.1)

theorem KeptBy.antisymm (h : m.KeptBy n) (h' : n.KeptBy m) : m = n :=
  h.eq_of_size_le h'.size_le

/-- Maps with the same values are the same map. -/
theorem ext_get? (h : ∀ x, m.get? x = n.get? x) : m = n :=
  KeptBy.antisymm (fun x _ hx => (h x).symm.trans hx) fun x _ hx => (h x).trans hx

/-! ### Maps of lists -/

/-- A name after all others comes last. -/
theorem insertEntry_concat {name : String} {value : β} {l : List (String × β)}
    (h : ∀ e ∈ l, e.1 < name) : insertEntry name value l = l ++ [(name, value)] := by
  induction l with
  | nil => rfl
  | cons e l ih =>
    obtain ⟨he, hl⟩ := List.forall_mem_cons.1 h
    unfold insertEntry
    rw [if_neg (String.lt_asymm he), if_neg (String.ne_of_lt he).symm, ih hl]
    rfl

theorem ofList_entries (m : NameMap β) : ofList m.entries = m := by
  have hfold : ∀ (l : List (String × β)) (m : NameMap β),
      (m.entries ++ l).Pairwise (fun a b => a.1 < b.1) →
      (l.foldl (fun m e => m.insert e.1 e.2) m).entries = m.entries ++ l := by
    intro l
    induction l with
    | nil =>
      intro m _
      exact (List.append_nil m.entries).symm
    | cons e l ih =>
      intro m hsorted
      have hlast : (m.insert e.1 e.2).entries = m.entries ++ [e] := by
        refine insertEntry_concat fun e' he' => ?_
        exact (List.pairwise_append.1 hsorted).2.2 e' he' e List.mem_cons_self
      rw [List.foldl_cons, ih (m.insert e.1 e.2) (by rwa [hlast, ← List.append_cons]), hlast,
        ← List.append_cons]
  exact ext (hfold m.entries ∅ m.sorted)

/-- Entries of different names can be inserted in either order. -/
theorem insert_comm {x y : String} (h : x ≠ y) (v w : β) :
    (m.insert x v).insert y w = (m.insert y w).insert x v := by
  apply ext_get?
  intro z
  simp only [get?_insert]
  by_cases hx : z = x
  · subst hx
    simp [h]
  · simp [hx]

/-- The entries of a map make up the map in any order. -/
theorem ofList_perm {l : List (String × β)} (h : l.Perm m.entries) : ofList l = m := by
  have hcomm : ∀ e ∈ l, ∀ f ∈ l, ∀ k : NameMap β,
      (k.insert e.1 e.2).insert f.1 f.2 = (k.insert f.1 f.2).insert e.1 e.2 := by
    intro e he f hf k
    by_cases hname : e.1 = f.1
    · have hevalue : m.get? e.1 = some e.2 := get?_eq_some_iff.2 (h.mem_iff.1 he)
      have hfvalue : m.get? f.1 = some f.2 := get?_eq_some_iff.2 (h.mem_iff.1 hf)
      have hvalue : e.2 = f.2 := by
        rw [hname, hfvalue] at hevalue
        exact (Option.some.inj hevalue).symm
      rw [hname, hvalue]
    · exact insert_comm hname e.2 f.2
  calc ofList l
    _ = ofList m.entries := h.foldl_eq' hcomm ∅
    _ = m := ofList_entries m

/-! ### Updates -/

theorem get?_updatedBy (m n : NameMap β) (x : String) :
    (m.updatedBy n).get? x = (n.get? x).or (m.get? x) :=
  get?_foldl_insert n.sorted m x

theorem insert_eq_updatedBy (m : NameMap β) (x : String) (v : β) :
    m.insert x v = m.updatedBy ((∅ : NameMap β).insert x v) := rfl

theorem updatedBy_assoc (m n k : NameMap β) :
    (m.updatedBy n).updatedBy k = m.updatedBy (n.updatedBy k) := by
  apply ext_get?
  intro x
  simp only [get?_updatedBy, Option.or_assoc]

end Moore.NameMap
