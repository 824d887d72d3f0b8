import Mathlib.Data.List.Nodup
import Moore.Graph
import Moore.Proofs.Condition

/-
# Grouping by pairs

The groups of edges with the same ends grow pair by pair: a pair goes into the first group that
holds its first edge, or is a new group.  Here they are compared with the classes of the edges
by their ends (`Edges.parallelClasses`), which no pairs are needed for.

All pairs of one first edge stand together, so while the pairs of later edges are still to come,
a group is either complete or not yet there.  Complete means that it holds exactly those of the
edges to come that have its ends (`Edges.Covers`): this is what a pair preserves, and what lets
the search for one edge find the group that the other edge belongs to as well.
-/

namespace Moore

/-! ### Values of a list, each once -/

section EraseDups

variable {α β : Type} [BEq β] [LawfulBEq β] [DecidableEq β] (f : α → β)

theorem eraseDups_map_cons (a : α) (l : List α) :
    ((a :: l).map f).eraseDups = f a :: ((l.filter (f · ≠ f a)).map f).eraseDups := by
  rw [List.map_cons, List.eraseDups_cons, List.filter_map]
  refine congrArg (fun l => f a :: (l.map f).eraseDups) (List.filter_congr fun b _ => ?_)
  rw [Bool.eq_iff_iff]
  simp

/-- The values of an increasing list, each once, stand in the order of their first arguments. -/
theorem pairwise_eraseDups_map {R : α → α → Prop} {l : List α} (hl : l.Pairwise R) :
    (l.map f).eraseDups.Pairwise fun p q =>
      p ≠ q ∧ ∃ a ∈ l, f a = p ∧ ∀ b ∈ l, f b = q → R a b := by
  match l with
  | [] => exact List.Pairwise.nil
  | a :: l =>
    obtain ⟨ha, hl⟩ := List.pairwise_cons.1 hl
    have hother : ∀ q ∈ ((l.filter (f · ≠ f a)).map f).eraseDups, f a ≠ q := by
      intro q hq
      obtain ⟨b, hb, rfl⟩ := List.mem_map.1 (List.mem_eraseDups.1 hq)
      exact Ne.symm (by simpa using (List.mem_filter.1 hb).2)
    have ih := pairwise_eraseDups_map (hl.filter (f · ≠ f a))
    rw [eraseDups_map_cons, List.pairwise_cons]
    refine ⟨fun q hq => ⟨hother q hq, a, List.mem_cons_self, rfl, ?_⟩,
      ih.imp_of_mem fun {p q} _ hq h => ?_⟩
    · intro b hb hbq
      rcases List.mem_cons.1 hb with rfl | hb
      · exact absurd hbq (hother q hq)
      · exact ha b hb
    · obtain ⟨hne, c, hc, hcp, hfirst⟩ := h
      refine ⟨hne, c, List.mem_cons_of_mem a (List.mem_filter.1 hc).1, hcp, fun b hb hbq => ?_⟩
      have hba : f b ≠ f a := hbq ▸ (hother q hq).symm
      have hb : b ∈ l := (List.mem_cons.1 hb).resolve_left fun heq => hba (congrArg f heq)
      exact hfirst b (List.mem_filter.2 ⟨hb, by simpa using hba⟩) hbq
termination_by l.length
decreasing_by exact Nat.lt_succ_of_le (List.length_filter_le _ _)

end EraseDups

/-! ### Classes -/

namespace Edges

/-- The edges that share both ends with another one, by their ends. -/
def parallelClasses (es : List Edge) : List (List Edge) :=
  ((es.map ends).eraseDups.map fun p => es.filter (ends · = p)).filter (1 < ·.length)

/-- The other edges with the ends of an edge. -/
def mates (e : Edge) (es : List Edge) : List Edge :=
  es.filter (ends · = ends e)

/-- The group of an edge and other ones, if there are other ones. -/
def newGroup (e : Edge) (es : List Edge) : List (List Edge) :=
  [e :: es].filter (1 < ·.length)

/-- The edges that no group holds. -/
def missing (groups : List (List Edge)) (es : List Edge) : List Edge :=
  es.filter fun e => !groups.any (holds · e)

theorem mem_mates {e f : Edge} {es : List Edge} : f ∈ mates e es ↔ f ∈ es ∧ ends f = ends e := by
  simp [mates]

@[simp] theorem newGroup_nil (e : Edge) : newGroup e [] = [] := rfl

@[simp] theorem newGroup_cons (e f : Edge) (es : List Edge) :
    newGroup e (f :: es) = [e :: f :: es] := by
  simp [newGroup]

theorem eq_of_mem_newGroup {group es : List Edge} {e : Edge} (h : group ∈ newGroup e es) :
    group = e :: es :=
  List.mem_singleton.1 (List.mem_filter.1 h).1

theorem parallelClasses_cons (e : Edge) (es : List Edge) : parallelClasses (e :: es) =
    newGroup e (mates e es) ++ parallelClasses (es.filter (ends · ≠ ends e)) := by
  have hclass : ∀ p ∈ ((es.filter (ends · ≠ ends e)).map ends).eraseDups,
      (e :: es).filter (ends · = p) = (es.filter (ends · ≠ ends e)).filter (ends · = p) := by
    intro p hp
    obtain ⟨f, hf, rfl⟩ := List.mem_map.1 (List.mem_eraseDups.1 hp)
    have hne : ends f ≠ ends e := by simpa using (List.mem_filter.1 hf).2
    rw [List.filter_cons_of_neg (by simpa using hne.symm), List.filter_filter]
    refine List.filter_congr fun g _ => ?_
    by_cases hg : ends g = ends f
    · simp [hg, hne]
    · simp [hg]
  have hfirst : (e :: es).filter (ends · = ends e) = e :: mates e es :=
    List.filter_cons_of_pos (by simp)
  unfold parallelClasses
  rw [eraseDups_map_cons, List.map_cons, List.map_congr_left hclass, hfirst,
    ← List.singleton_append, List.filter_append]
  rfl

theorem parallelPairs_cons (e : Edge) (es : List Edge) :
    parallelPairs (e :: es) = (mates e es).map (e, ·) ++ parallelPairs es := by
  rw [parallelPairs, laterPairs, List.filter_append, List.filter_map]
  refine congrArg (fun fs => fs.map (e, ·) ++ parallelPairs es) (List.filter_congr fun f _ => ?_)
  simp [eq_comm]

/-! ### Adding the pairs of one edge -/

theorem holds_iff {group : List Edge} {e : Edge} :
    holds group e = true ↔ e.id ∈ group.map Edge.id := by
  simp [holds]

section AddPair

variable {groups : List (List Edge)} {a b : Edge} {rest : List Edge}

/-- Each group holds exactly those of the edges to come that have certain ends. -/
def Covers (groups : List (List Edge)) (rest : List Edge) : Prop :=
  ∀ group ∈ groups, ∃ p, ∀ e ∈ rest, holds group e = true ↔ ends e = p

theorem Covers.mono {es : List Edge} (h : Covers groups rest) (hsub : ∀ e ∈ es, e ∈ rest) :
    Covers groups es := by
  intro group hgroup
  obtain ⟨p, hp⟩ := h group hgroup
  exact ⟨p, fun e he => hp e (hsub e he)⟩

/-- A group that holds one edge to come holds every other one with the same ends. -/
theorem Covers.holds_of_ends_eq (h : Covers groups rest) {group : List Edge}
    (hgroup : group ∈ groups) (ha : a ∈ rest) (hb : b ∈ rest) (hends : ends a = ends b)
    (hheld : holds group a = true) : holds group b = true := by
  obtain ⟨p, hp⟩ := h group hgroup
  exact (hp b hb).2 (hends ▸ (hp a ha).1 hheld)

/-- A pair of which a group holds the first edge adds nothing. -/
theorem Covers.addPair_eq (h : Covers groups rest) (ha : a ∈ rest) (hb : b ∈ rest)
    (hends : ends a = ends b) (hheld : groups.any (holds · a) = true) :
    addPair groups (a, b) = groups := by
  induction groups with
  | nil => cases hheld
  | cons group groups ih =>
    by_cases hfirst : holds group a = true
    · have hsecond : holds group b = true :=
        h.holds_of_ends_eq List.mem_cons_self ha hb hends hfirst
      rw [addPair, if_pos hfirst, if_pos hsecond]
    · have hcovers : Covers groups rest := fun g hg => h g (List.mem_cons_of_mem _ hg)
      rw [addPair, if_neg hfirst, ih hcovers (by simpa [hfirst] using hheld)]

/-- So the pairs of such an edge add nothing. -/
theorem Covers.foldl_addPair_eq (h : Covers groups rest) (ha : a ∈ rest)
    (hheld : groups.any (holds · a) = true) {bs : List Edge} (hbs : ∀ b ∈ bs, b ∈ rest)
    (hends : ∀ b ∈ bs, ends b = ends a) : (bs.map (a, ·)).foldl addPair groups = groups := by
  induction bs with
  | nil => rfl
  | cons b bs ih =>
    obtain ⟨hb, hbs⟩ := List.forall_mem_cons.1 hbs
    obtain ⟨hfirst, hends⟩ := List.forall_mem_cons.1 hends
    rw [List.map_cons, List.foldl_cons, h.addPair_eq ha hb hfirst.symm hheld]
    exact ih hbs hends

/-- Groups that do not hold the first edge of a pair are passed over. -/
theorem addPair_append (h : groups.any (holds · a) = false) (more : List (List Edge)) :
    addPair (groups ++ more) (a, b) = groups ++ addPair more (a, b) := by
  induction groups with
  | nil => rfl
  | cons group groups ih =>
    rw [List.any_cons, Bool.or_eq_false_iff] at h
    rw [List.cons_append, addPair, if_neg (by simp [h.1]), ih h.2, List.cons_append]

/-- Where the last group holds the first edge, it takes in the second edges one by one. -/
theorem foldl_addPair_last (h : groups.any (holds · a) = false) {bs cs : List Edge}
    (hids : ((a :: cs ++ bs).map Edge.id).Nodup) :
    (bs.map (a, ·)).foldl addPair (groups ++ [a :: cs]) = groups ++ [a :: cs ++ bs] := by
  induction bs generalizing cs with
  | nil => simp
  | cons b bs ih =>
    have hfirst : holds (a :: cs) a = true := holds_iff.2 List.mem_cons_self
    have hsecond : ¬holds (a :: cs) b = true := by
      rw [holds_iff]
      rw [List.map_append, List.nodup_append] at hids
      exact fun hb => hids.2.2 _ hb _ List.mem_cons_self rfl
    rw [List.map_cons, List.foldl_cons, addPair_append h, addPair, if_pos hfirst, if_neg hsecond]
    have hsplit : a :: cs ++ b :: bs = a :: (cs ++ [b]) ++ bs := by simp
    rw [hsplit] at hids ⊢
    exact ih hids

/-- The pairs of an edge that no group holds yet make one new group, if there are any. -/
theorem foldl_addPair_new (h : groups.any (holds · a) = false) {bs : List Edge}
    (hids : ((a :: bs).map Edge.id).Nodup) :
    (bs.map (a, ·)).foldl addPair groups = groups ++ newGroup a bs := by
  cases bs with
  | nil => simp
  | cons b bs =>
    have hpair : addPair groups (a, b) = groups ++ [[a, b]] := by
      simpa [addPair] using addPair_append (b := b) h []
    have hrest : (bs.map (a, ·)).foldl addPair (groups ++ [a :: [b]]) =
        groups ++ [a :: [b] ++ bs] := foldl_addPair_last h hids
    rw [List.map_cons, List.foldl_cons, hpair, hrest, newGroup_cons]
    rfl

/-! ### Adding all pairs -/

/-- A pair brings only its own edges. -/
theorem subset_of_mem_addPair {es : List Edge} (h : ∀ group ∈ groups, group ⊆ es) (ha : a ∈ es)
    (hb : b ∈ es) : ∀ group ∈ addPair groups (a, b), group ⊆ es := by
  induction groups with
  | nil => simp [addPair, ha, hb]
  | cons group groups ih =>
    obtain ⟨hgroup, hgroups⟩ := List.forall_mem_cons.1 h
    rw [addPair]
    split
    · refine List.forall_mem_cons.2 ⟨?_, hgroups⟩
      split
      · exact hgroup
      · exact List.append_subset.2 ⟨hgroup, by simpa using hb⟩
    · exact List.forall_mem_cons.2 ⟨hgroup, ih hgroups⟩

/-- So the groups hold only edges of the pairs. -/
theorem subset_of_mem_parallelGroups {es : List Edge} :
    ∀ group ∈ parallelGroups es, group ⊆ es := by
  have hfold : ∀ (pairs : List (Edge × Edge)) (groups : List (List Edge)),
      (∀ p ∈ pairs, p.1 ∈ es ∧ p.2 ∈ es) → (∀ group ∈ groups, group ⊆ es) →
        ∀ group ∈ pairs.foldl addPair groups, group ⊆ es := by
    intro pairs
    induction pairs with
    | nil => exact fun _ _ h => h
    | cons p pairs ih =>
      intro groups hpairs hgroups
      obtain ⟨⟨ha, hb⟩, hpairs⟩ := List.forall_mem_cons.1 hpairs
      exact ih _ hpairs (subset_of_mem_addPair hgroups ha hb)
  refine hfold _ _ (fun p hp => ?_) (List.forall_mem_nil _)
  obtain ⟨i, j, -, ha, hb⟩ := mem_laterPairs.1 (List.mem_filter.1 hp).1
  exact ⟨List.mem_of_getElem? ha, List.mem_of_getElem? hb⟩

/-- A new group holds exactly those of the edges to come that have its ends. -/
theorem holds_new_iff (hids : ((a :: rest).map Edge.id).Nodup) {e : Edge} (he : e ∈ rest) :
    holds (a :: mates a rest) e = true ↔ ends e = ends a := by
  obtain ⟨hfresh, hrest⟩ := List.nodup_cons.1 hids
  rw [holds_iff, List.map_cons, List.mem_cons]
  constructor
  · rintro (heq | hmem)
    · exact absurd (List.mem_map.2 ⟨e, he, heq⟩) hfresh
    · obtain ⟨f, hf, heq⟩ := List.mem_map.1 hmem
      obtain ⟨hf, hends⟩ := mem_mates.1 hf
      rwa [← List.inj_on_of_nodup_map hrest hf he heq]
  · exact fun hends => .inr (List.mem_map.2 ⟨e, mem_mates.2 ⟨he, hends⟩, rfl⟩)

/-- The edges to come that the groups hold once the pairs of an edge have been added. -/
theorem any_holds_new_iff (hids : ((a :: rest).map Edge.id).Nodup) {e : Edge} (he : e ∈ rest) :
    (groups ++ newGroup a (mates a rest)).any (holds · e) = true ↔
      groups.any (holds · e) = true ∨ ends e = ends a := by
  rw [List.any_append, Bool.or_eq_true, ← holds_new_iff hids he]
  refine or_congr_right ⟨fun hnew => ?_, fun hheld => ?_⟩
  · obtain ⟨group, hgroup, hheld⟩ := List.any_eq_true.1 hnew
    rwa [← eq_of_mem_newGroup hgroup]
  · have hmate : e ∈ mates a rest := mem_mates.2 ⟨he, (holds_new_iff hids he).1 hheld⟩
    obtain ⟨b, bs, hmates⟩ := List.exists_cons_of_ne_nil (List.ne_nil_of_mem hmate)
    rw [hmates] at hheld ⊢
    simpa using hheld

theorem Covers.append_new (h : Covers groups rest) (hids : ((a :: rest).map Edge.id).Nodup) :
    Covers (groups ++ newGroup a (mates a rest)) rest := by
  intro group hgroup
  rcases List.mem_append.1 hgroup with hgroup | hgroup
  · exact h group hgroup
  · rw [eq_of_mem_newGroup hgroup]
    exact ⟨ends a, fun e he => holds_new_iff hids he⟩

/-- No group holds a mate of an edge that none holds. -/
theorem Covers.mates_missing (h : Covers groups (a :: rest))
    (hheld : groups.any (holds · a) = false) : mates a (missing groups rest) = mates a rest := by
  rw [mates, missing, List.filter_filter]
  refine List.filter_congr fun e he => ?_
  by_cases hends : ends e = ends a
  · have hunheld : groups.any (holds · e) = false := by
      rw [List.any_eq_false] at hheld ⊢
      exact fun group hgroup he' => hheld group hgroup
        (h.holds_of_ends_eq hgroup (List.mem_cons_of_mem a he) List.mem_cons_self hends he')
    simp [hunheld]
  · simp [hends]

theorem missing_append_new (hids : ((a :: rest).map Edge.id).Nodup) :
    missing (groups ++ newGroup a (mates a rest)) rest =
      (missing groups rest).filter (ends · ≠ ends a) := by
  rw [missing, missing, List.filter_filter]
  refine List.filter_congr fun e he => ?_
  rw [Bool.eq_iff_iff, Bool.not_eq_true', ← Bool.not_eq_true, any_holds_new_iff hids he]
  simp [and_comm]

/-- The groups that stand are complete, and the edges to come that they do not hold give the
classes that are still missing. -/
theorem foldl_addPair_parallelPairs (hids : (rest.map Edge.id).Nodup) (h : Covers groups rest) :
    (parallelPairs rest).foldl addPair groups =
      groups ++ parallelClasses (missing groups rest) := by
  induction rest generalizing groups with
  | nil => simp [parallelPairs, laterPairs, parallelClasses, missing]
  | cons a rest ih =>
    have hrest : (rest.map Edge.id).Nodup := (List.nodup_cons.1 hids).2
    rw [parallelPairs_cons, List.foldl_append]
    by_cases hheld : groups.any (holds · a) = true
    · have hcovers : Covers groups rest := h.mono fun e he => List.mem_cons_of_mem a he
      have hmissing : missing groups (a :: rest) = missing groups rest :=
        List.filter_cons_of_neg (by simp [hheld])
      rw [h.foldl_addPair_eq List.mem_cons_self hheld
        (fun b hb => List.mem_cons_of_mem a (mem_mates.1 hb).1) fun b hb => (mem_mates.1 hb).2,
        ih hrest hcovers, hmissing]
    · rw [Bool.not_eq_true] at hheld
      have hcovers : Covers (groups ++ newGroup a (mates a rest)) rest :=
        (h.mono fun e he => List.mem_cons_of_mem a he).append_new hids
      have hnew : ((a :: mates a rest).map Edge.id).Nodup :=
        hids.sublist ((List.filter_sublist.cons_cons a).map Edge.id)
      have hmissing : missing groups (a :: rest) = a :: missing groups rest :=
        List.filter_cons_of_pos (by simp [hheld])
      rw [foldl_addPair_new hheld hnew, ih hrest hcovers, missing_append_new hids, hmissing,
        parallelClasses_cons, h.mates_missing hheld, List.append_assoc]

/-- The groups that grow from pairs are the classes. -/
theorem parallelGroups_eq_classes {es : List Edge} (hids : (es.map Edge.id).Nodup) :
    parallelGroups es = parallelClasses es := by
  have hcovers : Covers [] es := fun group hgroup => absurd hgroup List.not_mem_nil
  have hmissing : missing [] es = es := List.filter_eq_self.2 fun _ _ => rfl
  rw [parallelGroups, foldl_addPair_parallelPairs hids hcovers, hmissing, List.nil_append]

end AddPair

end Edges

end Moore
