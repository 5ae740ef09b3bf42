/-
# Polytype.Proofs.Name.Bytes — the bytes of a name and their order.

A name is compared by its characters and measured by its bytes.  The two views agree: the bytes of a name are those of
its characters in turn (`bytes_eq`), and of two names the one that comes first by its characters also comes first by its
bytes (`bytes_le_iff`).

For the order it is enough to look at the first character in which two names differ.  The bytes of the lesser one
come first at a place where both characters have a byte (`utf8EncodeChar_before`), so whatever follows does not
matter.
-/
import Mathlib.Data.String.Basic
import Polytype.Name.Similar

namespace Polytype.Name

/-! ## Bytes of characters -/

theorem bytes_eq (s : String) : bytes s = s.toList.flatMap String.utf8EncodeChar := by
  rw [bytes, ← String.utf8Encode_toList, List.utf8Encode, List.data_toByteArray]

theorem utf8EncodeChar_of_ascii {c : Char} (h : c.val.toNat ≤ 127) : String.utf8EncodeChar c = [c.toUInt8] := by
  rw [String.utf8EncodeChar, if_pos h]
  rfl

/-- Every byte of a longer encoding has its highest bit set. -/
theorem lt_toNat_of_mem_utf8EncodeChar {c : Char} (hc : ¬ c.val.toNat ≤ 127) {b : UInt8}
    (hb : b ∈ String.utf8EncodeChar c) : 127 < b.toNat := by
  have hmem : b.toNat ∈ (String.utf8EncodeChar c).map UInt8.toNat := List.mem_map_of_mem hb
  rw [String.utf8EncodeChar, if_neg hc] at hmem
  split at hmem
  · simp only [List.map_cons, List.map_nil, List.mem_cons, List.not_mem_nil, or_false, UInt8.toNat_ofNat'] at hmem
    omega
  · split at hmem
    · simp only [List.map_cons, List.map_nil, List.mem_cons, List.not_mem_nil, or_false, UInt8.toNat_ofNat'] at hmem
      omega
    · simp only [List.map_cons, List.map_nil, List.mem_cons, List.not_mem_nil, or_false, UInt8.toNat_ofNat'] at hmem
      omega

/-- A byte below 128 stands for its own character only. -/
theorem eq_of_mem_utf8EncodeChar {c d : Char} (hd : d.val.toNat ≤ 127) (h : d.toUInt8 ∈ String.utf8EncodeChar c) :
    c = d := by
  have htoNat : ∀ {c : Char}, c.val.toNat ≤ 127 → c.toUInt8.toNat = c.val.toNat := by
    intro c hc
    rw [Char.toUInt8, UInt32.toNat_toUInt8, Nat.mod_eq_of_lt (by omega)]
  by_cases hc : c.val.toNat ≤ 127
  · rw [utf8EncodeChar_of_ascii hc, List.mem_singleton] at h
    refine Char.ext (UInt32.toNat_inj.mp ?_)
    rw [← htoNat hc, ← htoNat hd, h]
  · have hlt := lt_toNat_of_mem_utf8EncodeChar hc h
    rw [htoNat hd] at hlt
    omega

/-- Two lists differ, and where they do so for the first time the one has the lesser byte. -/
inductive Before : List UInt8 → List UInt8 → Prop
  | here {x y : UInt8} {s t : List UInt8} : x < y → Before (x :: s) (y :: t)
  | later {x : UInt8} {s t : List UInt8} : Before s t → Before (x :: s) (x :: t)

namespace Before

variable {s t : List UInt8}

theorem append (h : Before s t) (s' t' : List UInt8) : Before (s ++ s') (t ++ t') := by
  induction h with
  | here hxy => exact .here hxy
  | later _ ih => exact .later ih

theorem lt (h : Before s t) : s < t := by
  induction h with
  | here hxy => exact List.cons_lt_cons_iff.mpr (Or.inl hxy)
  | later _ ih => exact List.cons_lt_cons_iff.mpr (Or.inr ⟨rfl, ih⟩)

/-- It is enough to compare the first bytes, and to look further only where they are equal. -/
theorem of_le {x y : Nat} (hx : x < 256) (hy : y < 256) (hle : x ≤ y) (h : x = y → Before s t) :
    Before (.ofNat x :: s) (.ofNat y :: t) := by
  rcases Nat.lt_or_eq_of_le hle with hlt | rfl
  · refine .here (UInt8.lt_iff_toNat_lt.mpr ?_)
    rwa [UInt8.toNat_ofNat', UInt8.toNat_ofNat', Nat.mod_eq_of_lt hx, Nat.mod_eq_of_lt hy]
  · exact .later (h rfl)

theorem of_lt {x y : Nat} (hy : y < 256) (hlt : x < y) : Before (.ofNat x :: s) (.ofNat y :: t) :=
  of_le (Nat.lt_trans hlt hy) hy (Nat.le_of_lt hlt) fun h => absurd h (Nat.ne_of_lt hlt)

end Before

/-- Of two characters, the lesser one comes first by its bytes.  If they have equally many bytes, these are the digits
of their codes from the highest one on; otherwise the first byte tells how many there are. -/
theorem utf8EncodeChar_before {c d : Char} (h : c < d) :
    Before (String.utf8EncodeChar c) (String.utf8EncodeChar d) := by
  have hlt : c.val.toNat < d.val.toNat := h
  have hmax : d.val.toNat < 1114112 := by
    rcases d.valid with hlow | hhigh
    · exact Nat.lt_trans hlow (by decide)
    · exact hhigh.2
  rw [String.utf8EncodeChar, String.utf8EncodeChar]
  generalize c.val.toNat = v at hlt ⊢
  generalize d.val.toNat = w at hlt hmax ⊢
  by_cases h₁ : w ≤ 127
  · rw [if_pos h₁, if_pos (by omega)]
    exact .of_lt (by omega) hlt
  rw [if_neg h₁]
  by_cases h₂ : w ≤ 2047
  · rw [if_pos h₂]
    split
    · exact .of_lt (by omega) (by omega)
    · rw [if_pos (by omega)]
      exact .of_le (by omega) (by omega) (by omega) fun _ => .of_lt (by omega) (by omega)
  rw [if_neg h₂]
  by_cases h₃ : w ≤ 65535
  · rw [if_pos h₃]
    split
    · exact .of_lt (by omega) (by omega)
    · split
      · exact .of_lt (by omega) (by omega)
      · rw [if_pos (by omega)]
        exact .of_le (by omega) (by omega) (by omega) fun _ =>
          .of_le (by omega) (by omega) (by omega) fun _ => .of_lt (by omega) (by omega)
  rw [if_neg h₃]
  split
  · exact .of_lt (by omega) (by omega)
  · split
    · exact .of_lt (by omega) (by omega)
    · split
      · exact .of_lt (by omega) (by omega)
      · exact .of_le (by omega) (by omega) (by omega) fun _ =>
          .of_le (by omega) (by omega) (by omega) fun _ =>
            .of_le (by omega) (by omega) (by omega) fun _ => .of_lt (by omega) (by omega)

/-! ## Bytes of names -/

theorem flatMap_utf8EncodeChar_lt {cs ds : List Char} (h : cs < ds) :
    cs.flatMap String.utf8EncodeChar < ds.flatMap String.utf8EncodeChar := by
  induction h with
  | @nil d ds =>
      obtain ⟨b, bs, hd⟩ := List.exists_cons_of_ne_nil (String.utf8EncodeChar_ne_nil (c := d))
      rw [List.flatMap_nil, List.flatMap_cons, hd]
      exact List.nil_lt_cons b _
  | @cons c cs ds _ ih =>
      rw [List.flatMap_cons, List.flatMap_cons]
      exact List.append_left_lt ih
  | @rel c cs d ds hcd =>
      rw [List.flatMap_cons, List.flatMap_cons]
      exact ((utf8EncodeChar_before hcd).append _ _).lt

theorem bytes_lt_bytes {a b : String} (h : a < b) : bytes a < bytes b := by
  rw [bytes_eq, bytes_eq]
  exact flatMap_utf8EncodeChar_lt (String.lt_iff_toList_lt.mp h)

/-- The order of names is the order of their bytes. -/
theorem bytes_le_iff {a b : String} : bytes a ≤ bytes b ↔ a ≤ b := by
  rw [← List.not_lt, ← String.not_lt, not_iff_not]
  refine ⟨fun h => ?_, bytes_lt_bytes⟩
  rcases lt_trichotomy a b with hab | rfl | hba
  · exact absurd (bytes_lt_bytes hab) (List.lt_asymm h)
  · exact absurd h (List.lt_irrefl _)
  · exact hba

end Polytype.Name
