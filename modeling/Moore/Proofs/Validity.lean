import Moore.Error
import Moore.Proofs.Bytes
import Moore.Proofs.Checks
import Moore.Proofs.Ordered

/-
# Valid sets of states

`Nodes.validate` compares no two states.  It counts how often each name and each output occurs
among the members, and the counts say what a comparison would: a name occurs twice if two members
bear it (`Store.namesDiffer_iff`), and an output occurs less often than there are members if one
of them lacks it (`Store.uneven_iff`).

The counts are kept in the order of the names, so the error is about the first name or output in
that order, which is the order of their bytes (`find?_tally_eq_some_iff`).
-/

namespace Moore

open Text (IsFirst)

/-! ### Counts -/

/-- A search among the counts finds the first text whose count passes. -/
theorem find?_tally_eq_some_iff {l : List String} {p : Nat → Bool} {s : String} {n : Nat} :
    (tally l).find? (fun e => p e.2) = some (s, n) ↔
      IsFirst (fun s => s ∈ l ∧ p (l.count s) = true) s ∧ n = l.count s := by
  have hlt : ∀ s t : String, compare s t = .lt ↔ s < t := fun s t => compareOfLessAndEq_eq_lt
  have hfirst : (Ordered.ofList compare l).find? (fun s => p (l.count s)) = some s ↔
      IsFirst (fun s => s ∈ l ∧ p (l.count s) = true) s := by
    rw [(Ordered.strict_ofList l).find?_eq_some_iff, Text.isFirst_iff]
    simp only [Ordered.mem_ofList, hlt, and_imp, and_assoc]
  rw [tally, List.find?_map, Option.map_eq_some_iff, ← hfirst]
  constructor
  · rintro ⟨_, hfind, heq⟩
    obtain ⟨rfl, rfl⟩ := Prod.mk.inj heq
    exact ⟨hfind, rfl⟩
  · rintro ⟨hfind, rfl⟩
    exact ⟨s, hfind, rfl⟩

theorem find?_tally_eq_none_iff {l : List String} {p : Nat → Bool} :
    (tally l).find? (fun e => p e.2) = none ↔ ∀ s, ¬(s ∈ l ∧ p (l.count s) = true) := by
  simp only [tally, List.find?_eq_none, List.forall_mem_map, Ordered.mem_ofList, not_and]

/-- In a list without repetitions, at most one element passes a test if no other passes with it. -/
theorem countP_le_one_iff_of_nodup {α : Type} {p : α → Bool} {l : List α} (h : l.Nodup) :
    l.countP p ≤ 1 ↔ ∀ a ∈ l, ∀ b ∈ l, p a = true → p b = true → a = b := by
  rw [countP_le_one_iff]
  constructor
  · intro hpairs a ha b hb hpa hpb
    obtain ⟨i, hi⟩ := List.mem_iff_getElem?.1 ha
    obtain ⟨j, hj⟩ := List.mem_iff_getElem?.1 hb
    rcases Nat.lt_trichotomy i j with hlt | rfl | hlt
    · exact absurd ⟨hpa, hpb⟩ (hpairs (a, b) (mem_laterPairs.2 ⟨i, j, hlt, hi, hj⟩))
    · exact Option.some.inj (hi.symm.trans hj)
    · exact absurd ⟨hpb, hpa⟩ (hpairs (b, a) (mem_laterPairs.2 ⟨j, i, hlt, hj, hi⟩))
  · rintro hall ⟨a, b⟩ hq ⟨hpa, hpb⟩
    obtain ⟨i, j, hlt, hi, hj⟩ := mem_laterPairs.1 hq
    obtain rfl := hall a (List.mem_of_getElem? hi) b (List.mem_of_getElem? hj) hpa hpb
    have hij : i = j :=
      (List.getElem?_inj (List.getElem?_eq_some_iff.1 hi).1 h).1 (hi.trans hj.symm)
    exact Nat.ne_of_lt hlt hij

/-! ### The check -/

namespace Nodes

/-- The number of states with a name. -/
def bearers (ns : List Node) (name : String) : Nat :=
  ns.countP (·.name = name)

/-- The number of states that define an output. -/
def definers (ns : List Node) (output : String) : Nat :=
  ns.countP fun n => (n.state.outputs.get? output).isSome

/-- The output is defined by some states and not by all. -/
def Uneven (ns : List Node) (output : String) : Prop :=
  0 < definers ns output ∧ definers ns output < ns.length

theorem count_names (ns : List Node) (name : String) :
    (ns.map Node.name).count name = bearers ns name := by
  rw [List.count, List.countP_map]
  exact List.countP_congr fun n _ => by simp

variable {ns : List Node} {name output : String}

theorem repeated_iff : name ∈ ns.map Node.name ∧ decide (1 < (ns.map Node.name).count name) = true ↔
    1 < bearers ns name := by
  rw [← List.count_pos_iff, count_names, decide_eq_true_iff]
  omega

theorem uneven_iff : output ∈ ns.flatMap (·.state.outputs.names) ∧
    decide ((ns.flatMap (·.state.outputs.names)).count output ≠ ns.length) = true ↔
      Uneven ns output := by
  have hle : definers ns output ≤ ns.length := List.countP_le_length
  rw [← List.count_pos_iff, count_outputNames, decide_eq_true_iff]
  show 0 < definers ns output ∧ definers ns output ≠ ns.length ↔ _
  rw [Uneven]
  omega

/-- The three ways in which the check ends. -/
theorem validate_cases (ns : List Node) :
    (∃ name, IsFirst (1 < bearers ns ·) name ∧
        validate ns = .error (.duplicateName name (bearers ns name))) ∨
      ((∀ name, bearers ns name ≤ 1) ∧ ∃ output, IsFirst (Uneven ns) output ∧
        validate ns = .error (.unevenOutput output (definers ns output) ns.length)) ∨
      ((∀ name, bearers ns name ≤ 1) ∧ (∀ output, ¬Uneven ns output) ∧
        validate ns = .ok ()) := by
  unfold validate names outputs
  cases hnames : (tally (ns.map Node.name)).find? (fun e => decide (1 < e.2)) with
  | some e =>
    obtain ⟨hfirst, hcount⟩ := find?_tally_eq_some_iff (p := fun n => decide (1 < n)).1 hnames
    rw [count_names] at hcount
    exact .inl ⟨e.1, hfirst.congr fun _ => repeated_iff, by rw [← hcount]⟩
  | none =>
    have hle : ∀ name, bearers ns name ≤ 1 := fun name => Nat.le_of_not_lt fun hlt =>
      find?_tally_eq_none_iff (p := fun n => decide (1 < n)).1 hnames name (repeated_iff.2 hlt)
    refine .inr ?_
    cases houtputs : (tally (ns.flatMap (·.state.outputs.names))).find?
        (fun e => decide (e.2 ≠ ns.length)) with
    | some e =>
      obtain ⟨hfirst, hcount⟩ :=
        find?_tally_eq_some_iff (p := fun n => decide (n ≠ ns.length)).1 houtputs
      rw [count_outputNames] at hcount
      refine .inl ⟨hle, e.1, hfirst.congr fun _ => uneven_iff, ?_⟩
      rw [definers, ← hcount]
    | none =>
      refine .inr ⟨hle, fun output huneven => ?_, rfl⟩
      exact find?_tally_eq_none_iff (p := fun n => decide (n ≠ ns.length)).1 houtputs output
        (uneven_iff.2 huneven)

end Nodes

/-! ### Members by their handles -/

namespace Store

variable {s : Store} {set : StateSet}

/-- Whether the state has the name. -/
def bears (s : Store) (name : String) (id : StateId) : Bool :=
  (s.state? id).any (·.name = name)

/-- Whether the state defines the output. -/
def defines (s : Store) (output : String) (id : StateId) : Bool :=
  (s.state? id).any fun state => (state.outputs.get? output).isSome

/-- The members have different names. -/
def NamesDiffer (s : Store) (set : StateSet) : Prop :=
  ∀ name, ∀ id ∈ set, ∀ id' ∈ set, s.bears name id = true → s.bears name id' = true → id = id'

/-- Any two members define the same outputs. -/
def OutputsAgree (s : Store) (set : StateSet) : Prop :=
  ∀ output, ∀ id ∈ set, ∀ id' ∈ set, s.defines output id = s.defines output id'

/-- Some member defines the output and some member lacks it. -/
def Uneven (s : Store) (set : StateSet) (output : String) : Prop :=
  (∃ id ∈ set, s.defines output id = true) ∧ ∃ id ∈ set, s.defines output id = false

theorem countP_handles (known : s.knowsStates set = true) (p : State → Bool) :
    set.handles.countP (fun id => (s.state? id).any p) = (s.nodes set).countP (p ·.state) := by
  rw [← map_id_nodes known, List.countP_map]
  refine List.countP_congr fun n hn => ?_
  have hstate : s.state? n.id = some n.state := (node?_eq_some_iff.1 (mem_nodes.1 hn).2).2
  simp [hstate]

theorem bearers_nodes (known : s.knowsStates set = true) (name : String) :
    Nodes.bearers (s.nodes set) name = set.handles.countP (s.bears name) :=
  (countP_handles known fun state => decide (state.name = name)).symm

theorem definers_nodes (known : s.knowsStates set = true) (output : String) :
    Nodes.definers (s.nodes set) output = set.handles.countP (s.defines output) :=
  (countP_handles known fun state => (state.outputs.get? output).isSome).symm

theorem namesDiffer_iff :
    s.NamesDiffer set ↔ ∀ name, set.handles.countP (s.bears name) ≤ 1 :=
  forall_congr' fun _ => (countP_le_one_iff_of_nodup (Handle.nodup_of_pairwise set.sorted)).symm

theorem uneven_iff (known : s.knowsStates set = true) {output : String} :
    Nodes.Uneven (s.nodes set) output ↔ s.Uneven set output := by
  have hlacked : set.handles.countP (s.defines output) < set.handles.length ↔
      ∃ id ∈ set.handles, s.defines output id = false := by
    rw [Nat.lt_iff_le_and_ne, and_iff_right List.countP_le_length, ne_eq, List.countP_eq_length]
    simp
  rw [Nodes.Uneven, definers_nodes known, ← List.length_map Node.id, map_id_nodes known, hlacked,
    List.countP_pos_iff]
  rfl

theorem outputsAgree_iff : s.OutputsAgree set ↔ ∀ output, ¬s.Uneven set output := by
  refine forall_congr' fun output => ?_
  constructor
  · rintro hagree ⟨⟨id, hid, htrue⟩, id', hid', hfalse⟩
    rw [hagree id hid id' hid', hfalse] at htrue
    cases htrue
  · intro heven id hid id' hid'
    by_contra hne
    cases hdefines : s.defines output id with
    | true => exact heven ⟨⟨id, hid, hdefines⟩, id', hid', by simpa [hdefines] using hne⟩
    | false => exact heven ⟨⟨id', hid', by simpa [hdefines] using hne⟩, id, hid, hdefines⟩

/-- The three ways in which the check of known members ends. -/
theorem validate_cases (known : s.knowsStates set = true) :
    (∃ name, IsFirst (fun name => 1 < set.handles.countP (s.bears name)) name ∧
        Nodes.validate (s.nodes set) =
          .error (.duplicateName name (set.handles.countP (s.bears name)))) ∨
      (s.NamesDiffer set ∧ ∃ output, IsFirst (s.Uneven set) output ∧
        Nodes.validate (s.nodes set) =
          .error (.unevenOutput output (set.handles.countP (s.defines output)) set.size)) ∨
      (s.NamesDiffer set ∧ s.OutputsAgree set ∧ Nodes.validate (s.nodes set) = .ok ()) := by
  have hsize : (s.nodes set).length = set.size := by
    rw [← List.length_map Node.id, map_id_nodes known, HandleSet.size]
  have hcases := Nodes.validate_cases (s.nodes set)
  simp only [bearers_nodes known, definers_nodes known, hsize] at hcases
  rcases hcases with hrepeated | ⟨hnames, output, hfirst, hchecked⟩ | ⟨hnames, heven, hchecked⟩
  · exact .inl hrepeated
  · refine .inr (.inl ⟨namesDiffer_iff.2 hnames, output, ?_, hchecked⟩)
    exact hfirst.congr fun _ => uneven_iff known
  · refine .inr (.inr ⟨namesDiffer_iff.2 hnames, outputsAgree_iff.2 fun output => ?_, hchecked⟩)
    exact (uneven_iff known).not.1 (heven output)

/-- The check of a set of states by counts decides what a comparison of its members would.  It
passes exactly if the members have different names and any two of them define the same outputs.
Otherwise the error is about the first name, in the order of bytes, that several members bear,
with their number; or, where all names differ, about the first output that some member defines
and some member lacks, with the number of those that define it. -/
theorem validity_decided_by_counts (s : Store) (set : StateSet)
    (known : s.knowsStates set = true) :
    let checked := Nodes.validate (s.nodes set)
    let bearers := fun name => set.handles.countP (s.bears name)
    let definers := fun output => set.handles.countP (s.defines output)
    (checked = .ok () ↔ s.NamesDiffer set ∧ s.OutputsAgree set) ∧
      (∀ err, checked = .error err ↔
        (∃ name, IsFirst (1 < bearers ·) name ∧ err = .duplicateName name (bearers name)) ∨
          s.NamesDiffer set ∧ ∃ output, IsFirst (s.Uneven set) output ∧
            err = .unevenOutput output (definers output) set.size) ∧
      ∀ text count members,
        (ModelError.duplicateName text count).message =
            s!"invalid states: state name '{text}' is used {count} times" ∧
          (ModelError.unevenOutput text count members).message =
            s!"invalid states: output '{text}' is defined by {count} of {members} states" := by
  intro checked bearers definers
  have hrepeated : ∀ name, 1 < bearers name → ¬s.NamesDiffer set := fun name hlt h =>
    absurd hlt (Nat.not_lt.2 (namesDiffer_iff.1 h name))
  have huneven : ∀ output, s.Uneven set output → ¬s.OutputsAgree set := fun output h hagree =>
    outputsAgree_iff.1 hagree output h
  rcases validate_cases known with ⟨name, hfirst, hchecked⟩ | ⟨hnames, output, hfirst, hchecked⟩ |
    ⟨hnames, hagree, hchecked⟩
  · have hnot : ¬s.NamesDiffer set := hrepeated name hfirst.holds
    refine ⟨iff_of_false (by simp [checked, hchecked]) fun h => hnot h.1, fun err => ?_,
      fun _ _ _ => ⟨rfl, rfl⟩⟩
    rw [show checked = _ from hchecked, Except.error.injEq]
    constructor
    · rintro rfl
      exact .inl ⟨name, hfirst, rfl⟩
    · rintro (⟨name', hfirst', rfl⟩ | ⟨h, -⟩)
      · rw [hfirst.unique hfirst']
      · exact absurd h hnot
  · refine ⟨iff_of_false (by simp [checked, hchecked]) fun h => huneven output hfirst.holds h.2,
      fun err => ?_, fun _ _ _ => ⟨rfl, rfl⟩⟩
    rw [show checked = _ from hchecked, Except.error.injEq]
    constructor
    · rintro rfl
      exact .inr ⟨hnames, output, hfirst, rfl⟩
    · rintro (⟨name, hfirst', -⟩ | ⟨-, output', hfirst', rfl⟩)
      · exact absurd hnames (hrepeated name hfirst'.holds)
      · rw [hfirst.unique hfirst']
  · refine ⟨iff_of_true hchecked ⟨hnames, hagree⟩, fun err => ?_, fun _ _ _ => ⟨rfl, rfl⟩⟩
    refine iff_of_false (by simp [checked, hchecked]) ?_
    rintro (⟨name, hfirst, -⟩ | ⟨-, output, hfirst, -⟩)
    · exact hrepeated name hfirst.holds hnames
    · exact huneven output hfirst.holds hagree

/-- Three states are named `run` and two `idle`, and not all of them have the output.  The error is
about the name that comes first. -/
theorem repeated_names_found :
    let run : State := { name := "run", outputs := NameMap.ofList [("lamp", .high)] }
    let idle : State := { name := "idle" }
    let s : Store := { states := [run, idle, run, run, idle] }
    let set : StateSet := HandleSet.ofList [⟨0⟩, ⟨1⟩, ⟨2⟩, ⟨3⟩, ⟨4⟩]
    s.knowsStates set = true ∧ IsFirst (fun name => 1 < set.handles.countP (s.bears name)) "idle" ∧
      Nodes.validate (s.nodes set) = .error (.duplicateName "idle" 2) := by
  intro run idle s set
  have known : s.knowsStates set = true := by decide
  have hchecked : Nodes.validate (s.nodes set) = .error (.duplicateName "idle" 2) := by decide
  obtain ⟨-, herr, -⟩ := validity_decided_by_counts s set known
  rcases (herr _).1 hchecked with ⟨name, hfirst, heq⟩ | ⟨-, output, -, heq⟩
  · obtain rfl : "idle" = name := by cases heq; rfl
    exact ⟨known, hfirst, hchecked⟩
  · cases heq

end Store

end Moore
