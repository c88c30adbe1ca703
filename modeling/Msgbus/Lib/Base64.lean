import Mathlib.Data.List.Basic
import Mathlib.Tactic.IntervalCases

/-!
# Base64 without padding

The URL-safe alphabet.  Three bytes become four characters and a rest of one or
two bytes becomes two or three; the encoding is injective and uses only letters,
digits, `-` and `_`.
-/

namespace Base64

def symbol (n : Nat) : Char :=
  if n < 26 then Char.ofNat (65 + n)
  else if n < 52 then Char.ofNat (97 + (n - 26))
  else if n < 62 then Char.ofNat (48 + (n - 52))
  else if n = 62 then '-'
  else '_'

def value (c : Char) : Nat :=
  if c.isUpper then c.toNat - 65
  else if c.isLower then c.toNat - 97 + 26
  else if c.isDigit then c.toNat - 48 + 52
  else if c = '-' then 62
  else 63

theorem value_symbol {n : Nat} (hn : n < 64) : value (symbol n) = n := by
  interval_cases n <;> rfl

theorem symbol_alphabet {n : Nat} (hn : n < 64) :
    (symbol n).isAlphanum = true ∨ symbol n = '-' ∨ symbol n = '_' := by
  interval_cases n <;> decide

def encode : List UInt8 → List Char
  | [] => []
  | [a] => [symbol (a.toNat / 4), symbol (a.toNat % 4 * 16)]
  | [a, b] =>
      [symbol (a.toNat / 4), symbol (a.toNat % 4 * 16 + b.toNat / 16),
        symbol (b.toNat % 16 * 4)]
  | a :: b :: c :: rest =>
      symbol (a.toNat / 4) :: symbol (a.toNat % 4 * 16 + b.toNat / 16) ::
        symbol (b.toNat % 16 * 4 + c.toNat / 64) :: symbol (c.toNat % 64) :: encode rest

theorem encode_alphabet (bytes : List UInt8) :
    ∀ c ∈ encode bytes, c.isAlphanum = true ∨ c = '-' ∨ c = '_' := by
  fun_induction encode bytes with
  | case1 => simp
  | case2 a =>
      have ha := a.toNat_lt
      intro c hc
      simp only [List.mem_cons, List.not_mem_nil, or_false] at hc
      rcases hc with rfl | rfl
      · exact symbol_alphabet (by omega)
      · exact symbol_alphabet (by omega)
  | case3 a b =>
      have ha := a.toNat_lt
      have hb := b.toNat_lt
      intro c hc
      simp only [List.mem_cons, List.not_mem_nil, or_false] at hc
      rcases hc with rfl | rfl | rfl
      · exact symbol_alphabet (by omega)
      · exact symbol_alphabet (by omega)
      · exact symbol_alphabet (by omega)
  | case4 a b d rest ih =>
      have ha := a.toNat_lt
      have hb := b.toNat_lt
      have hd := d.toNat_lt
      intro c hc
      simp only [List.mem_cons] at hc
      rcases hc with rfl | rfl | rfl | rfl | hc
      · exact symbol_alphabet (by omega)
      · exact symbol_alphabet (by omega)
      · exact symbol_alphabet (by omega)
      · exact symbol_alphabet (by omega)
      · exact ih c hc

def decode : List Char → List UInt8
  | a :: b :: c :: d :: rest =>
      UInt8.ofNat (value a * 4 + value b / 16) :: UInt8.ofNat (value b % 16 * 16 + value c / 4) ::
        UInt8.ofNat (value c % 4 * 64 + value d) :: decode rest
  | [a, b, c] =>
      [UInt8.ofNat (value a * 4 + value b / 16), UInt8.ofNat (value b % 16 * 16 + value c / 4)]
  | [a, b] => [UInt8.ofNat (value a * 4 + value b / 16)]
  | _ => []

theorem eq_of_toNat {a : UInt8} {n : Nat} (h : n = a.toNat) : UInt8.ofNat n = a := by
  rw [h, UInt8.ofNat_toNat]

theorem decode_encode (bytes : List UInt8) : decode (encode bytes) = bytes := by
  fun_induction encode bytes with
  | case1 => rfl
  | case2 a =>
      have ha := a.toNat_lt
      rw [decode, value_symbol (by omega), value_symbol (by omega), eq_of_toNat (a := a) (by omega)]
  | case3 a b =>
      have ha := a.toNat_lt
      have hb := b.toNat_lt
      rw [decode, value_symbol (by omega), value_symbol (by omega), value_symbol (by omega),
        eq_of_toNat (a := a) (by omega), eq_of_toNat (a := b) (by omega)]
  | case4 a b c rest ih =>
      have ha := a.toNat_lt
      have hb := b.toNat_lt
      have hc := c.toNat_lt
      rw [decode, value_symbol (by omega), value_symbol (by omega), value_symbol (by omega),
        value_symbol (by omega), eq_of_toNat (a := a) (by omega), eq_of_toNat (a := b) (by omega),
        eq_of_toNat (a := c) (by omega), ih]

theorem encode_injective : Function.Injective encode :=
  Function.LeftInverse.injective decode_encode

end Base64
