/-
# Handles

States and transitions have identity: two states of one name with the same outputs are
still two states.  A handle is the number of an entity in its store.  Sets of handles are
kept in increasing order.
-/

namespace Moore

/-- What a handle refers to. -/
inductive Entity where
  | state
  | transition
  deriving DecidableEq, Repr

/-- The letter that marks the handles of a kind. -/
def Entity.mark : Entity → String
  | state => "s"
  | transition => "t"

/-- The number of an entity in its store. -/
structure Handle (kind : Entity) where
  index : Nat
  deriving DecidableEq, Repr

abbrev StateId := Handle .state

abbrev TransitionId := Handle .transition

def Handle.text {kind : Entity} (h : Handle kind) : String :=
  kind.mark ++ "#" ++ toString h.index

theorem Handle.nodup_of_pairwise {kind : Entity} {l : List (Handle kind)}
    (h : l.Pairwise fun a b => a.index < b.index) : l.Nodup := by
  refine h.imp ?_
  rintro a _ hlt rfl
  exact Nat.lt_irrefl _ hlt

/-- A finite set of handles. -/
structure HandleSet (kind : Entity) where
  /-- The handles, increasing. -/
  handles : List (Handle kind) := []
  sorted : handles.Pairwise (fun a b => a.index < b.index) := by simp

abbrev StateSet := HandleSet .state

abbrev TransitionSet := HandleSet .transition

namespace HandleSet

variable {kind : Entity}

theorem ext {s t : HandleSet kind} (h : s.handles = t.handles) : s = t := by
  cases s; cases t; cases h; rfl

instance : DecidableEq (HandleSet kind) := fun s t =>
  decidable_of_iff (s.handles = t.handles) ⟨ext, fun h => h ▸ rfl⟩

instance : EmptyCollection (HandleSet kind) := ⟨{}⟩

instance : Inhabited (HandleSet kind) := ⟨∅⟩

instance : Membership (Handle kind) (HandleSet kind) := ⟨fun s h => h ∈ s.handles⟩

theorem mem_def {s : HandleSet kind} {h : Handle kind} : h ∈ s ↔ h ∈ s.handles := Iff.rfl

instance (s : HandleSet kind) (h : Handle kind) : Decidable (h ∈ s) :=
  inferInstanceAs (Decidable (h ∈ s.handles))

def contains (s : HandleSet kind) (h : Handle kind) : Bool := s.handles.contains h

def size (s : HandleSet kind) : Nat := s.handles.length

def isEmpty (s : HandleSet kind) : Bool := s.handles.isEmpty

/-- Puts a handle at its place, unless it is there already. -/
def insertHandle (h : Handle kind) : List (Handle kind) → List (Handle kind)
  | [] => [h]
  | a :: as =>
    if h.index < a.index then h :: a :: as
    else if h = a then a :: as
    else a :: insertHandle h as

@[simp] theorem mem_insertHandle {h x : Handle kind} {l : List (Handle kind)} :
    x ∈ insertHandle h l ↔ x = h ∨ x ∈ l := by
  induction l with
  | nil => simp [insertHandle]
  | cons a as ih =>
    simp only [insertHandle]
    split
    · simp
    · split
      · next heq => subst heq; simp
      · simp only [List.mem_cons, ih]
        exact or_left_comm

theorem sorted_insertHandle (h : Handle kind) {l : List (Handle kind)}
    (hl : l.Pairwise (fun a b => a.index < b.index)) :
    (insertHandle h l).Pairwise (fun a b => a.index < b.index) := by
  induction l with
  | nil => simp [insertHandle]
  | cons a as ih =>
    obtain ⟨ha, has⟩ := List.pairwise_cons.1 hl
    simp only [insertHandle]
    split
    · next hlt =>
      refine List.pairwise_cons.2 ⟨fun x hx => ?_, hl⟩
      rcases List.mem_cons.1 hx with rfl | hx
      · exact hlt
      · exact Nat.lt_trans hlt (ha x hx)
    · split
      · exact hl
      · next hge hne =>
        refine List.pairwise_cons.2 ⟨fun x hx => ?_, ih has⟩
        rcases mem_insertHandle.1 hx with rfl | hx
        · refine Nat.lt_of_le_of_ne (Nat.le_of_not_lt hge) fun he => hne ?_
          cases x; cases a; cases he; rfl
        · exact ha x hx

/-- Adds a handle. -/
def insert (s : HandleSet kind) (h : Handle kind) : HandleSet kind where
  handles := insertHandle h s.handles
  sorted := sorted_insertHandle h s.sorted

/-- The members that satisfy `p`. -/
def filter (p : Handle kind → Bool) (s : HandleSet kind) : HandleSet kind where
  handles := s.handles.filter p
  sorted := s.sorted.filter p

/-- Removes a handle. -/
def erase (s : HandleSet kind) (h : Handle kind) : HandleSet kind :=
  s.filter (· ≠ h)

/-- The set of the handles of a list. -/
def ofList (l : List (Handle kind)) : HandleSet kind :=
  l.foldl insert ∅

/-- The handles of either set. -/
def union (s t : HandleSet kind) : HandleSet kind :=
  t.handles.foldl insert s

/-- The handles of the first set that the second does not hold. -/
def difference (s t : HandleSet kind) : HandleSet kind :=
  s.filter fun h => !t.contains h

/-- The handles as numbers. -/
def indices (s : HandleSet kind) : List Nat :=
  s.handles.map (·.index)

@[simp] theorem mem_insert {s : HandleSet kind} {h x : Handle kind} :
    x ∈ s.insert h ↔ x = h ∨ x ∈ s :=
  mem_insertHandle

@[simp] theorem not_mem_empty (h : Handle kind) : h ∉ (∅ : HandleSet kind) :=
  List.not_mem_nil

@[simp] theorem mem_filter {p : Handle kind → Bool} {s : HandleSet kind} {h : Handle kind} :
    h ∈ s.filter p ↔ h ∈ s ∧ p h = true := by
  simp [mem_def, filter]

end HandleSet

end Moore
