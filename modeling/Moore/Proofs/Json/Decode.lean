import Moore.Proofs.NameMap
import Moore.Proofs.State
import Moore.State.Json

/-
# What decoders give back

A value that is encoded as JSON is a source without damage, the entries of its objects in the
order of their keys.  `Recovers` says of a decoder that it gives back what was encoded, and
is stated for plain values, lists and maps of names here.

Of records there are two facts: an entry is read into the field of its name, and what every
field keeps holds of the whole draft, whether the record is written as an object or as an
array.
-/

namespace Moore

namespace Json

/-! ### Sources of values -/

namespace Source

theorem ofItems_eq_map (js : List Json) : ofItems js = js.map ofJson := by
  induction js with
  | nil => simp [ofItems]
  | cons j js ih => simp [ofItems, ih]

/-- Entries as they stand in the source of an object. -/
def keyed (entries : List (String × Json)) : List (Source × Source) :=
  entries.map fun e => (.str e.1, ofJson e.2)

/-- A new key is put at its place. -/
theorem exists_insertEntry (key : String) (j : Json) {entries : List (String × Json)}
    (hsorted : entries.Pairwise fun a b => a.1 < b.1) (hnew : ∀ e ∈ entries, e.1 ≠ key) :
    ∃ entries', insertEntry key (ofJson j) (keyed entries) = keyed entries' ∧
      entries'.Perm ((key, j) :: entries) ∧ entries'.Pairwise fun a b => a.1 < b.1 := by
  induction entries with
  | nil => exact ⟨[(key, j)], rfl, .refl _, List.pairwise_singleton _ _⟩
  | cons e entries ih =>
    obtain ⟨he, htail⟩ := List.pairwise_cons.1 hsorted
    obtain ⟨hne, hnew⟩ := List.forall_mem_cons.1 hnew
    show ∃ _, insertEntry key (ofJson j) ((.str e.1, ofJson e.2) :: keyed entries) = _ ∧ _
    unfold insertEntry
    by_cases hlt : key < e.1
    · rw [if_pos hlt]
      refine ⟨(key, j) :: e :: entries, rfl, .refl _, List.pairwise_cons.2 ⟨?_, hsorted⟩⟩
      intro x hx
      rcases List.mem_cons.1 hx with rfl | hx
      · exact hlt
      · exact String.lt_trans hlt (he x hx)
    · obtain ⟨entries', hinsert, hperm, hpairwise⟩ := ih htail hnew
      rw [if_neg hlt, if_neg hne.symm, hinsert]
      refine ⟨e :: entries', rfl, (hperm.cons e).trans (.swap _ _ _), ?_⟩
      refine List.pairwise_cons.2 ⟨?_, hpairwise⟩
      intro x hx
      rcases List.mem_cons.1 (hperm.mem_iff.1 hx) with rfl | hx
      · rcases Std.lt_trichotomy e.1 key with h | h | h
        · exact h
        · exact absurd h hne
        · exact absurd h hlt
      · exact he x hx

theorem exists_ofEntries {entries seen : List (String × Json)}
    (hseen : seen.Pairwise fun a b => a.1 < b.1) (hnodup : ((entries ++ seen).map (·.1)).Nodup) :
    ∃ all, ofEntries (keyed seen) entries = keyed all ∧ all.Perm (entries ++ seen) ∧
      all.Pairwise fun a b => a.1 < b.1 := by
  induction entries generalizing seen with
  | nil => exact ⟨seen, by rw [ofEntries], .refl _, hseen⟩
  | cons e entries ih =>
    obtain ⟨hnew, hrest⟩ := List.nodup_cons.1 hnodup
    obtain ⟨seen', hinsert, hperm, hseen'⟩ := exists_insertEntry e.1 e.2 hseen (by
      intro x hx heq
      exact hnew (List.mem_map.2 ⟨x, List.mem_append_right entries hx, heq⟩))
    have hmove : (entries ++ seen').Perm (e :: (entries ++ seen)) :=
      (hperm.append_left entries).trans List.perm_middle
    obtain ⟨all, hall, hperm', hsorted⟩ := ih hseen' ((hmove.map (·.1)).nodup_iff.2 hnodup)
    refine ⟨all, ?_, hperm'.trans hmove, hsorted⟩
    rw [ofEntries, hinsert, hall]

/-- Entries of different keys are put into the order of their keys. -/
theorem ofEntries_eq {entries sorted : List (String × Json)} (hperm : entries.Perm sorted)
    (hsorted : sorted.Pairwise fun a b => a.1 < b.1) : ofEntries [] entries = keyed sorted := by
  have hnodup : (entries.map (·.1)).Nodup := by
    rw [(hperm.map (·.1)).nodup_iff, List.nodup_iff_pairwise_ne, List.pairwise_map]
    refine hsorted.imp ?_
    intro a b hlt
    exact String.ne_of_lt hlt
  obtain ⟨all, hall, hperm', hpairwise⟩ := @exists_ofEntries entries [] .nil
    (by rwa [List.append_nil])
  rw [List.append_nil] at hperm'
  have heq : all = sorted := by
    refine (hperm'.trans hperm).eq_of_pairwise ?_ hpairwise hsorted
    intro a b _ _ hab hba
    exact absurd hba (String.lt_asymm hab)
  rw [← heq]
  exact hall

end Source

/-! ### Plain values -/

namespace Decoder

variable {α β : Type}

/-- The decoder gives back a value that was encoded. -/
def Recovers (decode : Decoder α) (encode : α → Json) (a : α) : Prop :=
  decode (Source.ofJson (encode a)) = .ok a

theorem recovers_string (s : String) : Recovers string .str s := by
  unfold Recovers Source.ofJson
  rfl

theorem recovers_bool (b : Bool) : Recovers bool .bool b := by
  unfold Recovers Source.ofJson
  rfl

theorem recovers_level (l : Level) : Recovers level (fun l => .int l.bit) l := by
  unfold Recovers Source.ofJson
  cases l <;> rfl

theorem Recovers.list {decode : Decoder α} {encode : α → Json} {l : List α}
    (h : ∀ a ∈ l, Recovers decode encode a) :
    Recovers (list decode) (Json.ofList encode) l := by
  unfold Recovers Json.ofList Source.ofJson
  rw [Source.ofItems_eq_map, List.map_map]
  exact mapM_map_eq_self h

theorem recovers_strings (l : List String) : Recovers (list string) Json.strings l :=
  Recovers.list fun s _ => recovers_string s

theorem Recovers.named {decode : Decoder β} {encode : β → Json}
    (h : ∀ b, Recovers decode encode b) (m : NameMap β) :
    Recovers (named decode) (fun m => .obj (m.entries.map fun e => (e.1, encode e.2))) m := by
  have hsorted : (m.entries.map fun e => (e.1, encode e.2)).Pairwise fun a b => a.1 < b.1 := by
    rw [List.pairwise_map]
    exact m.sorted
  have hpairs := mapM_map_eq_self (l := m.entries)
    (f := fun p : Source × Source => do
      let name ← string p.1
      return (name, ← decode p.2))
    (g := fun e => (Source.str e.1, Source.ofJson (encode e.2))) (by
      intro e _
      have he : decode (Source.ofJson (encode e.2)) = .ok e.2 := h e.2
      show (decode (Source.ofJson (encode e.2)) >>= fun b => pure (e.1, b)) = .ok e
      rw [he]
      rfl)
  unfold Recovers Source.ofJson
  rw [Source.ofEntries_eq (.refl _) hsorted, Source.keyed, List.map_map]
  show (List.mapM _ _ >>= fun pairs => pure (NameMap.ofList pairs)) = _
  rw [Function.comp_def, hpairs]
  exact congrArg Except.ok m.ofList_entries

theorem recovers_outputs {o : Outputs} (h : o.Named) : Recovers outputs Outputs.toJson o := by
  have hnamed : Decoder.named level (Source.ofJson o.toJson) = .ok o :=
    Recovers.named recovers_level o
  unfold Recovers outputs
  rw [hnamed]
  have hcheck : o.check = .ok () := Outputs.check_eq_ok_iff.2 h
  show ((Outputs.check o).mapError _ >>= fun _ => pure o) = .ok o
  rw [hcheck]
  rfl

/-- Outputs that are read have good names. -/
theorem named_of_outputs {s : Source} {o : Outputs} (h : outputs s = .ok o) : o.Named := by
  simp only [outputs, bind_eq_ok_iff, mapError_eq_ok_iff, pure_eq_ok_iff] at h
  obtain ⟨o', -, _, hcheck, rfl⟩ := h
  exact Outputs.check_eq_ok_iff.1 hcheck

theorem forall_of_list {decode : Decoder α} {P : α → Prop} (h : ∀ s a, decode s = .ok a → P a)
    {s : Source} {l : List α} (hl : list decode s = .ok l) : ∀ a ∈ l, P a := by
  unfold list at hl
  split at hl
  · intro a ha
    obtain ⟨item, -, hitem⟩ := exists_of_mem_mapM hl ha
    exact h item a hitem
  · cases hl

/-! ### Records -/

theorem read_of {σ ε δ : Type} {name : String} {optional : Bool} {decode : σ → Except ε α}
    {get : δ → Option α} {set : δ → α → δ} {value : σ} {draft : δ} {a : α}
    (h : decode value = .ok a) :
    (Field.of name optional decode get set).read value draft = .ok (set draft a) := by
  show (decode value).map (set draft) = _
  rw [h]
  rfl

section Records

variable {δ : Type} {r : Record Source DecodeError δ α} {draft draft' : δ}

/-- The entry of a field that the draft does not have yet is read into it. -/
theorem readEntries_cons {name : String} {j : Json} {rest : List (String × Json)} {final : δ}
    {field : Field Source DecodeError δ} (hfield : r.field? name = some field)
    (hfree : field.isSet draft = false) (hread : field.read (Source.ofJson j) draft = .ok draft')
    (hrest : readEntries r draft' (Source.keyed rest) = .ok final) :
    readEntries r draft (Source.keyed ((name, j) :: rest)) = .ok final := by
  show readEntries r draft ((.str name, Source.ofJson j) :: Source.keyed rest) = _
  rw [readEntries]
  refine bind_eq_ok_iff.2 ⟨name, rfl, ?_⟩
  rw [hfield]
  simp only [hfree, hread]
  exact hrest

/-- An object is read as a record, in whatever order its fields are written. -/
theorem recovers_record {encode : α → Json} {a : α} {entries : List (String × Json)}
    (draft : δ) (hencode : encode a = .obj entries) {sorted : List (String × Json)}
    (hperm : entries.Perm sorted) (hkeys : (sorted.map (·.1)).Pairwise (· < ·))
    (hread : readEntries r r.start (Source.keyed sorted) = .ok draft)
    (hfinish : r.finish draft = .ok a) : Recovers (record r) encode a := by
  unfold Recovers
  rw [hencode, Source.ofJson, Source.ofEntries_eq hperm (List.pairwise_map.1 hkeys)]
  show (readEntries r r.start (Source.keyed sorted) >>= finish r) = _
  rw [hread]
  show (r.finish draft).mapError _ = _
  rw [hfinish]
  rfl

/-- What every field keeps holds of the draft after all entries. -/
theorem readEntries_preserves {P : δ → Prop}
    (hfield : ∀ field ∈ r.fields, ∀ value draft draft', P draft →
      field.read value draft = .ok draft' → P draft')
    {entries : List (Source × Source)} (h : P draft)
    (hread : readEntries r draft entries = .ok draft') : P draft' := by
  induction entries generalizing draft with
  | nil =>
    cases hread
    exact h
  | cons entry rest ih =>
    obtain ⟨key, value⟩ := entry
    rw [readEntries] at hread
    simp only [bind_eq_ok_iff] at hread
    obtain ⟨name, -, hread⟩ := hread
    split at hread
    · simp only [bind_eq_ok_iff] at hread
      obtain ⟨_, -, hread⟩ := hread
      exact ih h hread
    · next field hfound =>
      split at hread
      · cases hread
      · simp only [bind_eq_ok_iff] at hread
        obtain ⟨next, hnext, hread⟩ := hread
        exact ih (hfield field (List.mem_of_find?_eq_some hfound) value draft next h hnext) hread

/-- What every field keeps holds of the draft after all items. -/
theorem readItems_preserves {P : δ → Prop}
    (hfield : ∀ field ∈ r.fields, ∀ value draft draft', P draft →
      field.read value draft = .ok draft' → P draft')
    {items : List Source} (h : P r.start) (hread : readItems r items = .ok draft') :
    P draft' := by
  have hgo : ∀ (fields : List (Field Source DecodeError δ)) (rest : List Source) (draft : δ),
      (∀ field ∈ fields, field ∈ r.fields) → P draft →
      readItems.go r items draft fields rest = .ok draft' → P draft' := by
    intro fields
    induction fields with
    | nil =>
      intro rest draft _ h hread
      simp only [readItems.go, bind_eq_ok_iff, pure_eq_ok_iff] at hread
      obtain ⟨_, -, rfl⟩ := hread
      exact h
    | cons field fields ih =>
      intro rest draft hfields h hread
      obtain ⟨hmem, htail⟩ := List.forall_mem_cons.1 hfields
      cases rest with
      | nil =>
        rw [readItems.go] at hread
        split at hread
        · exact ih [] draft htail h hread
        · cases hread
      | cons item rest =>
        simp only [readItems.go, bind_eq_ok_iff] at hread
        obtain ⟨next, hnext, hread⟩ := hread
        exact ih rest next htail (hfield field hmem item draft next h hnext) hread
  exact hgo r.fields items r.start (fun _ hmem => hmem) h hread

/-- What every field keeps, and finishing a draft turns into `Q`, makes records with `Q`. -/
theorem of_record {P : δ → Prop} {Q : α → Prop} (hstart : P r.start)
    (hfield : ∀ field ∈ r.fields, ∀ value draft draft', P draft →
      field.read value draft = .ok draft' → P draft')
    (hfinish : ∀ draft a, P draft → r.finish draft = .ok a → Q a) {s : Source} {a : α}
    (h : record r s = .ok a) : Q a := by
  unfold record finish at h
  split at h
  · simp only [bind_eq_ok_iff, mapError_eq_ok_iff] at h
    obtain ⟨draft, hread, ha⟩ := h
    exact hfinish draft a (readEntries_preserves hfield hstart hread) ha
  · simp only [bind_eq_ok_iff, mapError_eq_ok_iff] at h
    obtain ⟨draft, hread, ha⟩ := h
    exact hfinish draft a (readItems_preserves hfield hstart hread) ha
  · cases h

end Records

end Decoder

end Json

end Moore
