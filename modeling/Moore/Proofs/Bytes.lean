import Mathlib.Algebra.Group.Nat.Defs
import Mathlib.Data.List.Lex
import Mathlib.Tactic.SplitIfs

/-
# The order of texts is the order of their bytes

Texts are compared character by character.  In UTF-8 the first byte of a character grows with it,
and where it is the same for two characters the digits after it are as many and decide
(`lead_lt`, `continuation_append_lt`).  So the first byte in which two texts differ belongs to the
first character in which they do, and comparing the bytes comes to the same
(`bytes_lt_bytes_iff`).
-/

namespace Moore.Text

variable {c d : Char} {v w k : Nat}

/-- The bytes of a text in UTF-8. -/
def bytes (s : String) : List UInt8 :=
  s.toUTF8.data.toList

/-- Of the texts with a property, this one comes first by its bytes. -/
structure IsFirst (P : String → Prop) (s : String) : Prop where
  holds : P s
  least : ∀ t, P t → t ≠ s → bytes s < bytes t

/-! ### Bytes of a character -/

/-- How many bytes follow the first byte of a character. -/
def followers (v : Nat) : Nat :=
  if v ≤ 127 then 0 else if v ≤ 2047 then 1 else if v ≤ 65535 then 2 else 3

/-- The first byte of a character. -/
def lead (v : Nat) : Nat :=
  if v ≤ 127 then v
  else if v ≤ 2047 then v / 64 + 192
  else if v ≤ 65535 then v / 64 ^ 2 + 224
  else v / 64 ^ 3 + 240

/-- The last `k` digits of a number to the base 64, each in a byte that starts no character. -/
def continuation : (k : Nat) → Nat → List UInt8
  | 0, _ => []
  | k + 1, v => UInt8.ofNat (v / 64 ^ k % 64 + 128) :: continuation k v

theorem toNat_lt (c : Char) : c.toNat < 1114112 := by
  rcases c.valid with h | ⟨-, h⟩
  · exact Nat.lt_trans h (by decide)
  · exact h

theorem utf8EncodeChar_eq (c : Char) : String.utf8EncodeChar c =
    UInt8.ofNat (lead c.toNat) :: continuation (followers c.toNat) c.toNat := by
  have hc : c.toNat < 1114112 := toNat_lt c
  unfold String.utf8EncodeChar lead followers
  simp only [Char.toNat_val]
  -- The remainder in the first byte changes nothing, since the character is small enough.
  split_ifs with h₁ h₂ h₃
  · rfl
  · have hmod : c.toNat / 64 % 32 = c.toNat / 64 := Nat.mod_eq_of_lt (by omega)
    simp [continuation, hmod]
  · have hmod : c.toNat / 4096 % 16 = c.toNat / 4096 := Nat.mod_eq_of_lt (by omega)
    simp [continuation, hmod]
  · have hmod : c.toNat / 262144 % 8 = c.toNat / 262144 := Nat.mod_eq_of_lt (by omega)
    simp [continuation, hmod]

/-! ### Comparison -/

theorem ofNat_lt_ofNat {m n : Nat} (hn : n < 256) (h : m < n) : UInt8.ofNat m < UInt8.ofNat n := by
  rw [UInt8.lt_iff_toNat_lt, UInt8.toNat_ofNat', UInt8.toNat_ofNat']
  omega

/-- The first digit that differs decides, whatever comes after the digits. -/
theorem continuation_append_lt (h : v % 64 ^ k < w % 64 ^ k) (s t : List UInt8) :
    continuation k v ++ s < continuation k w ++ t := by
  induction k with
  | zero => simp [Nat.mod_one] at h
  | succ k ih =>
    rw [Nat.mod_pow_succ, Nat.mod_pow_succ] at h
    have hw : w % 64 ^ k < 64 ^ k := Nat.mod_lt _ (Nat.pow_pos (by decide))
    rw [continuation, continuation, List.cons_append, List.cons_append, List.cons_lt_cons_iff]
    rcases Nat.lt_trichotomy (v / 64 ^ k % 64) (w / 64 ^ k % 64) with hlt | heq | hgt
    · exact .inl (ofNat_lt_ofNat (by omega) (by omega))
    · rw [heq] at h ⊢
      exact .inr ⟨rfl, ih (Nat.lt_of_add_lt_add_right h)⟩
    · have hmul := Nat.mul_le_mul_left (64 ^ k) hgt
      rw [Nat.mul_succ] at hmul
      omega

/-- A larger character has a larger first byte, or the same one and larger digits after it. -/
theorem lead_lt (hw : w < 1114112) (h : v < w) : lead w < 256 ∧ (lead v < lead w ∨
    lead v = lead w ∧ followers v = followers w ∧
      v % 64 ^ followers w < w % 64 ^ followers w) := by
  unfold lead followers
  split_ifs <;> omega

theorem utf8EncodeChar_append_lt (h : c < d) (s t : List UInt8) :
    String.utf8EncodeChar c ++ s < String.utf8EncodeChar d ++ t := by
  have hlt : c.toNat < d.toNat := UInt32.lt_iff_toNat_lt.1 h
  obtain ⟨hd, hlead⟩ := lead_lt (toNat_lt d) hlt
  rw [utf8EncodeChar_eq, utf8EncodeChar_eq, List.cons_append, List.cons_append,
    List.cons_lt_cons_iff]
  rcases hlead with hlt | ⟨heq, hfollowers, hdigits⟩
  · exact .inl (ofNat_lt_ofNat hd hlt)
  · rw [heq, hfollowers]
    exact .inr ⟨rfl, continuation_append_lt hdigits s t⟩

theorem flatMap_utf8EncodeChar_lt {cs ds : List Char} (h : cs < ds) :
    cs.flatMap String.utf8EncodeChar < ds.flatMap String.utf8EncodeChar := by
  induction cs generalizing ds with
  | nil =>
    cases ds with
    | nil => exact absurd h (List.lt_irrefl _)
    | cons d ds =>
      rw [List.flatMap_cons, utf8EncodeChar_eq]
      exact List.nil_lt_cons _ _
  | cons c cs ih =>
    cases ds with
    | nil => exact absurd h (List.not_lt_nil _)
    | cons d ds =>
      rw [List.flatMap_cons, List.flatMap_cons]
      rcases List.cons_lt_cons_iff.1 h with hlt | ⟨rfl, hlt⟩
      · exact utf8EncodeChar_append_lt hlt _ _
      · exact List.append_left_lt (ih hlt)

theorem bytes_eq (s : String) : bytes s = s.toList.flatMap String.utf8EncodeChar := by
  rw [bytes, ← String.ofList_toList (s := s), String.toUTF8_eq_toByteArray,
    String.toByteArray_ofList, List.utf8Encode, List.toList_data_toByteArray, String.toList_ofList]

/-- UTF-8 keeps the order of texts. -/
theorem bytes_lt_bytes_iff {s t : String} : bytes s < bytes t ↔ s < t := by
  have hmono : ∀ {s t : String}, s < t → bytes s < bytes t := by
    intro s t h
    rw [bytes_eq, bytes_eq]
    exact flatMap_utf8EncodeChar_lt h
  constructor
  · intro h
    rcases Std.lt_trichotomy s t with hlt | rfl | hgt
    · exact hlt
    · exact absurd h (List.lt_irrefl _)
    · exact absurd (hmono hgt) (List.lt_asymm h)
  · exact hmono

/-! ### The first text of its kind -/

variable {P Q : String → Prop} {s t : String}

theorem isFirst_iff : IsFirst P s ↔ P s ∧ ∀ t, P t → t ≠ s → s < t := by
  simp only [← bytes_lt_bytes_iff]
  exact ⟨fun h => ⟨h.holds, h.least⟩, fun h => ⟨h.1, h.2⟩⟩

theorem IsFirst.congr (h : IsFirst P s) (hPQ : ∀ t, P t ↔ Q t) : IsFirst Q s where
  holds := (hPQ s).1 h.holds
  least t ht := h.least t ((hPQ t).2 ht)

theorem IsFirst.unique (h : IsFirst P s) (h' : IsFirst P t) : s = t := by
  by_contra hne
  exact List.lt_asymm (h.least t h'.holds (Ne.symm hne)) (h'.least s h.holds hne)

end Moore.Text
