/-
# Finite maps from names

`NameMap β` holds pairs of a name and a value in strictly increasing order of the
names, so two maps with the same bindings are the same map.  It carries the levels
bound to inputs, the outputs of a state, the polarities of a term and the counts of
a state set.
-/

namespace Moore

/-- A finite map from names, its entries in increasing order of the names. -/
structure NameMap (β : Type) where
  /-- The entries. -/
  entries : List (String × β)
  /-- The names strictly increase. -/
  sorted : entries.Pairwise (fun a b => a.1 < b.1) := by simp

namespace NameMap

variable {β γ : Type}

theorem ext {m n : NameMap β} (h : m.entries = n.entries) : m = n := by
  cases m; cases n; cases h; rfl

instance [DecidableEq β] : DecidableEq (NameMap β) := fun m n =>
  decidable_of_iff (m.entries = n.entries) ⟨ext, fun h => h ▸ rfl⟩

instance : EmptyCollection (NameMap β) := ⟨{ entries := [] }⟩

instance : Inhabited (NameMap β) := ⟨∅⟩

/-- The value of a name. -/
def get? (m : NameMap β) (name : String) : Option β :=
  m.entries.lookup name

/-- The names, increasing. -/
def names (m : NameMap β) : List String :=
  m.entries.map (·.1)

def size (m : NameMap β) : Nat := m.entries.length

def isEmpty (m : NameMap β) : Bool := m.entries.isEmpty

/-- Puts an entry at its place, over the entry of the same name if there is one. -/
def insertEntry (name : String) (value : β) : List (String × β) → List (String × β)
  | [] => [(name, value)]
  | e :: es =>
    if name < e.1 then (name, value) :: e :: es
    else if name = e.1 then (name, value) :: es
    else e :: insertEntry name value es

theorem mem_insertEntry {name : String} {value : β} {l : List (String × β)} {x : String × β}
    (h : x ∈ insertEntry name value l) : x = (name, value) ∨ x ∈ l := by
  induction l with
  | nil => simpa [insertEntry] using h
  | cons e es ih =>
    simp only [insertEntry] at h
    split at h
    · simpa using h
    · split at h
      · rcases List.mem_cons.1 h with h | h
        · exact .inl h
        · exact .inr (List.mem_cons_of_mem _ h)
      · rcases List.mem_cons.1 h with rfl | h
        · exact .inr (by simp)
        · rcases ih h with h | h
          · exact .inl h
          · exact .inr (List.mem_cons_of_mem _ h)

theorem sorted_insertEntry (name : String) (value : β) {l : List (String × β)}
    (h : l.Pairwise (fun a b => a.1 < b.1)) :
    (insertEntry name value l).Pairwise (fun a b => a.1 < b.1) := by
  induction l with
  | nil => simp [insertEntry]
  | cons e es ih =>
    obtain ⟨he, hes⟩ := List.pairwise_cons.1 h
    simp only [insertEntry]
    split
    · next hlt =>
      refine List.pairwise_cons.2 ⟨fun x hx => ?_, h⟩
      rcases List.mem_cons.1 hx with rfl | hx
      · exact hlt
      · exact String.lt_trans hlt (he x hx)
    · next hnlt =>
      split
      · next heq => exact List.pairwise_cons.2 ⟨fun x hx => heq ▸ he x hx, hes⟩
      · next hne =>
        refine List.pairwise_cons.2 ⟨fun x hx => ?_, ih hes⟩
        rcases mem_insertEntry hx with rfl | hx
        · rcases Std.lt_trichotomy e.1 name with h' | h' | h'
          · exact h'
          · exact absurd h'.symm hne
          · exact absurd h' hnlt
        · exact he x hx

/-- Binds a name; an earlier value of the name is replaced. -/
def insert (m : NameMap β) (name : String) (value : β) : NameMap β where
  entries := insertEntry name value m.entries
  sorted := sorted_insertEntry name value m.sorted

/-- The map of a list of pairs; of several pairs with one name the last counts. -/
def ofList (l : List (String × β)) : NameMap β :=
  l.foldl (fun m e => m.insert e.1 e.2) ∅

/-- Changes every value and no name. -/
def mapValues (f : β → γ) (m : NameMap β) : NameMap γ where
  entries := m.entries.map fun e => (e.1, f e.2)
  sorted := by
    rw [List.pairwise_map]
    exact m.sorted

/-! ### Lookup after insertion -/

theorem lookup_insertEntry_self (name : String) (value : β) (l : List (String × β)) :
    (insertEntry name value l).lookup name = some value := by
  induction l with
  | nil => simp [insertEntry]
  | cons e es ih =>
    obtain ⟨k, v⟩ := e
    simp only [insertEntry]
    split
    · simp
    · split
      · simp
      · next hne =>
        have : (name == k) = false := by simpa using hne
        simp [List.lookup_cons, this, ih]

theorem lookup_insertEntry_of_ne {name other : String} (h : other ≠ name) (value : β)
    (l : List (String × β)) : (insertEntry name value l).lookup other = l.lookup other := by
  have hb : (other == name) = false := by simpa using h
  induction l with
  | nil => simp [insertEntry, List.lookup_cons, hb]
  | cons e es ih =>
    obtain ⟨k, v⟩ := e
    simp only [insertEntry]
    split
    · simp [List.lookup_cons, hb]
    · split
      · next heq =>
        have heq : name = k := heq
        subst heq
        simp [List.lookup_cons, hb]
      · simp only [List.lookup_cons, ih]

@[simp] theorem get?_empty (name : String) : (∅ : NameMap β).get? name = none := rfl

@[simp] theorem get?_insert_self (m : NameMap β) (name : String) (value : β) :
    (m.insert name value).get? name = some value :=
  lookup_insertEntry_self name value m.entries

theorem get?_insert_of_ne (m : NameMap β) {name other : String} (h : other ≠ name) (value : β) :
    (m.insert name value).get? other = m.get? other :=
  lookup_insertEntry_of_ne h value m.entries

theorem get?_insert (m : NameMap β) (name other : String) (value : β) :
    (m.insert name value).get? other = if other = name then some value else m.get? other := by
  by_cases h : other = name
  · simp [h]
  · simp [h, get?_insert_of_ne]

/-! ### Lookup and entries -/

theorem lookup_eq_some_of_mem {l : List (String × β)}
    (h : l.Pairwise (fun a b => a.1 < b.1)) {name : String} {value : β}
    (hm : (name, value) ∈ l) : l.lookup name = some value := by
  induction l with
  | nil => simp at hm
  | cons e es ih =>
    obtain ⟨k, v⟩ := e
    obtain ⟨he, hes⟩ := List.pairwise_cons.1 h
    rcases List.mem_cons.1 hm with heq | hm
    · cases heq
      exact List.lookup_cons_self
    · have hlt : k < name := he (name, value) hm
      have hne : name ≠ k := by
        rintro rfl
        exact String.lt_irrefl name hlt
      rw [List.lookup_cons, beq_false_of_ne hne]
      exact ih hes hm

/-- A name has the value that it has among the entries. -/
theorem get?_eq_some_iff {m : NameMap β} {name : String} {value : β} :
    m.get? name = some value ↔ (name, value) ∈ m.entries := by
  constructor
  · intro h
    obtain ⟨l₁, l₂, hl, -⟩ := List.lookup_eq_some_iff.1 h
    simp [hl]
  · exact lookup_eq_some_of_mem m.sorted

theorem mem_names {m : NameMap β} {name : String} :
    name ∈ m.names ↔ ∃ value, m.get? name = some value := by
  simp [names, get?_eq_some_iff]

/-- Entries inserted one after the other hide the earlier entries of their names. -/
theorem get?_foldl_insert {l : List (String × β)} (h : l.Pairwise (fun a b => a.1 < b.1))
    (m : NameMap β) (name : String) :
    (l.foldl (fun m e => m.insert e.1 e.2) m).get? name = (l.lookup name).or (m.get? name) := by
  induction l generalizing m with
  | nil => simp
  | cons e es ih =>
    obtain ⟨k, v⟩ := e
    obtain ⟨he, hes⟩ := List.pairwise_cons.1 h
    rw [List.foldl_cons, ih hes, get?_insert, List.lookup_cons]
    by_cases hk : name = k
    · subst hk
      have hnone : es.lookup name = none := by
        rw [List.lookup_eq_none_iff]
        intro p hp
        rw [bne_iff_ne]
        exact fun heq => String.lt_irrefl name (heq ▸ he p hp)
      simp [hnone]
    · simp [hk, beq_false_of_ne hk]

end NameMap

end Moore
