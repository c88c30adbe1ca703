import Mathlib.Data.String.Basic
import Mathlib.Data.UInt

/-!
# Texts and their UTF-8 bytes

A store that compares keys byte by byte orders texts the way texts themselves
are ordered, code point by code point: the encoding of a smaller character is a
smaller sequence of bytes, whatever follows it.
-/

namespace Utf8

def bytes (s : String) : List UInt8 := s.toUTF8.data.toList

theorem bytes_eq (s : String) : bytes s = s.toList.flatMap String.utf8EncodeChar := by
  have hencode : (String.ofList s.toList).toUTF8.data.toList =
      s.toList.flatMap String.utf8EncodeChar := by
    rw [String.toUTF8, String.toByteArray_ofList, List.utf8Encode]
    simp
  rw [String.ofList_toList] at hencode
  exact hencode

/-! ## One character -/

theorem cons_lt_cons {a b : Nat} {x y : List UInt8} (hb : b < 256)
    (h : a < b ∨ a = b ∧ x < y) : UInt8.ofNat a :: x < UInt8.ofNat b :: y := by
  rw [List.cons_lt_cons_iff]
  rcases h with hlt | ⟨rfl, hrest⟩
  · refine Or.inl (UInt8.lt_iff_toNat_lt.mpr ?_)
    rw [UInt8.toNat_ofNat', UInt8.toNat_ofNat', Nat.mod_eq_of_lt hb, Nat.mod_eq_of_lt (by omega)]
    exact hlt
  · exact Or.inr ⟨rfl, hrest⟩

theorem lastByte_lt {v w : Nat} (x y : List UInt8) (hdiv : v / 64 = w / 64) (hlt : v < w) :
    UInt8.ofNat (v % 64 + 128) :: x < UInt8.ofNat (w % 64 + 128) :: y :=
  cons_lt_cons (by omega) (Or.inl (by omega))

theorem lastTwoBytes_lt {v w : Nat} (x y : List UInt8) (hdiv : v / 4096 = w / 4096) (hlt : v < w) :
    UInt8.ofNat (v / 64 % 64 + 128) :: UInt8.ofNat (v % 64 + 128) :: x <
      UInt8.ofNat (w / 64 % 64 + 128) :: UInt8.ofNat (w % 64 + 128) :: y := by
  apply cons_lt_cons (by omega)
  rcases Nat.lt_or_ge (v / 64) (w / 64) with h | h
  · exact Or.inl (by omega)
  · exact Or.inr ⟨by omega, lastByte_lt x y (by omega) hlt⟩

theorem lastThreeBytes_lt {v w : Nat} (x y : List UInt8) (hdiv : v / 262144 = w / 262144)
    (hlt : v < w) :
    UInt8.ofNat (v / 4096 % 64 + 128) :: UInt8.ofNat (v / 64 % 64 + 128) ::
        UInt8.ofNat (v % 64 + 128) :: x <
      UInt8.ofNat (w / 4096 % 64 + 128) :: UInt8.ofNat (w / 64 % 64 + 128) ::
        UInt8.ofNat (w % 64 + 128) :: y := by
  apply cons_lt_cons (by omega)
  rcases Nat.lt_or_ge (v / 4096) (w / 4096) with h | h
  · exact Or.inl (by omega)
  · exact Or.inr ⟨by omega, lastTwoBytes_lt x y (by omega) hlt⟩

theorem toNat_val_lt (c : Char) : c.val.toNat < 0x110000 := by
  rcases c.valid with h | ⟨-, h⟩
  · have hsmall : c.val.toNat < 0xd800 := h
    omega
  · exact h

/-- The encoding of a smaller character comes first, whatever follows. -/
theorem encodeChar_lt {c d : Char} (h : c < d) (x y : List UInt8) :
    String.utf8EncodeChar c ++ x < String.utf8EncodeChar d ++ y := by
  have hlt : c.val.toNat < d.val.toNat := h
  have hd := toNat_val_lt d
  unfold String.utf8EncodeChar
  generalize c.val.toNat = v at hlt
  generalize d.val.toNat = w at hlt hd
  dsimp only
  split_ifs
  -- a shorter encoding starts with a smaller byte, and a longer one cannot come first
  all_goals first
    | omega
    | exact cons_lt_cons (by omega) (Or.inl (by omega))
    | skip
  -- what is left are the encodings of equal length
  · apply cons_lt_cons (by omega)
    rcases Nat.lt_or_ge (v / 64) (w / 64) with hlead | hlead
    · exact Or.inl (by omega)
    · exact Or.inr ⟨by omega, lastByte_lt x y (by omega) hlt⟩
  · apply cons_lt_cons (by omega)
    rcases Nat.lt_or_ge (v / 4096) (w / 4096) with hlead | hlead
    · exact Or.inl (by omega)
    · exact Or.inr ⟨by omega, lastTwoBytes_lt x y (by omega) hlt⟩
  · apply cons_lt_cons (by omega)
    rcases Nat.lt_or_ge (v / 262144) (w / 262144) with hlead | hlead
    · exact Or.inl (by omega)
    · exact Or.inr ⟨by omega, lastThreeBytes_lt x y (by omega) hlt⟩

theorem encodeChar_ne_nil (c : Char) : String.utf8EncodeChar c ≠ [] := by
  unfold String.utf8EncodeChar
  dsimp only
  split_ifs <;> simp

/-! ## Whole texts -/

theorem encode_lt {x y : List Char} (h : x < y) :
    x.flatMap String.utf8EncodeChar < y.flatMap String.utf8EncodeChar := by
  induction y generalizing x with
  | nil => exact absurd h (List.not_lt_nil x)
  | cons d y ih =>
      cases x with
      | nil =>
          rw [List.flatMap_nil, List.flatMap_cons]
          cases hd : String.utf8EncodeChar d with
          | nil => exact absurd hd (encodeChar_ne_nil d)
          | cons b rest => exact List.nil_lt_cons b _
      | cons c x =>
          rw [List.flatMap_cons, List.flatMap_cons]
          rcases List.cons_lt_cons_iff.mp h with hcd | ⟨rfl, hrest⟩
          · exact encodeChar_lt hcd _ _
          · exact List.append_left_lt (ih hrest)

/-- Byte order is text order. -/
theorem bytes_lt_iff {s t : String} : bytes s < bytes t ↔ s < t := by
  have hmono : ∀ {a b : String}, a < b → bytes a < bytes b := by
    intro a b hab
    rw [bytes_eq, bytes_eq]
    exact encode_lt (String.lt_iff_toList_lt.mp hab)
  refine ⟨fun hlt => ?_, hmono⟩
  rcases lt_trichotomy s t with hst | rfl | hts
  · exact hst
  · exact absurd hlt (List.lt_irrefl _)
  · exact absurd hlt (List.lt_asymm (hmono hts))

theorem bytes_le_iff {s t : String} : bytes s ≤ bytes t ↔ s ≤ t := by
  rw [← List.not_lt, bytes_lt_iff, not_lt]

end Utf8
