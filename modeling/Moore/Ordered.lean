/-
# Strictly sorted lists

A finite set is kept as the list of its elements in strictly increasing order, so
that equal sets are equal lists.  `insert` and `ofList` build such lists for any
comparison; `Strict` is the order they establish.
-/

namespace Moore.Ordered

variable {α : Type}

/-- Consecutive elements, and hence all elements, strictly increase. -/
def Strict (cmp : α → α → Ordering) (l : List α) : Prop :=
  l.Pairwise (cmp · · = .lt)

/-- Puts an element at its place, unless an equal one is there already. -/
def insert (cmp : α → α → Ordering) (a : α) : List α → List α
  | [] => [a]
  | b :: bs =>
    match cmp a b with
    | .lt => a :: b :: bs
    | .eq => b :: bs
    | .gt => b :: insert cmp a bs

/-- The elements of a list, each once, in increasing order. -/
def ofList (cmp : α → α → Ordering) (l : List α) : List α :=
  l.foldr (insert cmp) []

section Lemmas

variable {cmp : α → α → Ordering}

@[simp] theorem ofList_nil : ofList cmp [] = [] := rfl

@[simp] theorem ofList_cons (a : α) (l : List α) :
    ofList cmp (a :: l) = insert cmp a (ofList cmp l) := rfl

theorem mem_insert_self_or (a : α) (l : List α) :
    ∀ {x : α}, x ∈ insert cmp a l → x = a ∨ x ∈ l := by
  induction l with
  | nil => simp [insert]
  | cons b bs ih =>
    intro x hx
    simp only [insert] at hx
    split at hx
    · simpa using hx
    · exact .inr hx
    · rcases List.mem_cons.1 hx with rfl | hx
      · exact .inr (by simp)
      · rcases ih hx with h | h
        · exact .inl h
        · exact .inr (List.mem_cons_of_mem _ h)

/-- Where the comparison tells different elements apart, inserting adds exactly the element. -/
@[simp] theorem mem_insert [Std.LawfulEqCmp cmp] {a x : α} {l : List α} :
    x ∈ insert cmp a l ↔ x = a ∨ x ∈ l := by
  refine ⟨mem_insert_self_or a l, ?_⟩
  induction l with
  | nil => simp [insert]
  | cons b bs ih =>
    simp only [insert, List.mem_cons]
    rintro (rfl | rfl | h)
    · split
      · simp
      · next he => simp [Std.LawfulEqCmp.eq_of_compare he]
      · simp [ih (.inl rfl)]
    · split <;> simp
    · split
      · simp [h]
      · simp [h]
      · simp [ih (.inr h)]

@[simp] theorem mem_ofList [Std.LawfulEqCmp cmp] {x : α} {l : List α} :
    x ∈ ofList cmp l ↔ x ∈ l := by
  induction l with
  | nil => simp
  | cons a l ih => simp [ih]

theorem strict_insert [Std.TransCmp cmp] (a : α) {l : List α} (h : Strict cmp l) :
    Strict cmp (insert cmp a l) := by
  induction l with
  | nil => simp [insert, Strict]
  | cons b bs ih =>
    obtain ⟨hb, hbs⟩ := List.pairwise_cons.1 h
    simp only [insert]
    split
    · next hlt =>
      refine List.pairwise_cons.2 ⟨fun x hx => ?_, h⟩
      rcases List.mem_cons.1 hx with rfl | hx
      · exact hlt
      · exact Std.TransCmp.lt_trans hlt (hb x hx)
    · exact h
    · next hgt =>
      refine List.pairwise_cons.2 ⟨fun x hx => ?_, ih hbs⟩
      rcases mem_insert_self_or a bs hx with rfl | hx
      · exact Std.OrientedCmp.lt_of_gt hgt
      · exact hb x hx

/-- Whatever the list, what `ofList` returns is strictly increasing. -/
theorem strict_ofList [Std.TransCmp cmp] (l : List α) : Strict cmp (ofList cmp l) := by
  induction l with
  | nil => simp [Strict]
  | cons a l ih => exact strict_insert a ih

end Lemmas

end Moore.Ordered
