import Mathlib.Data.Nat.Digits.Defs
import Mathlib.Tactic.IntervalCases

/-!
# JSON codecs

Writers of compact JSON paired with readers of what they write.  A codec
carries its round trip: reading back a written value, followed by anything
that may follow a value in a document, returns the value and what follows.
Codecs of records and containers are built from those of their parts, so the
round trip of a format needs no proof of its own.
-/

namespace Json

/-- What may follow a value: the end of the text, a comma or a closing
bracket. -/
def Stops : List Char → Prop
  | [] => True
  | c :: _ => c = ',' ∨ c = '}' ∨ c = ']'

structure Codec (α : Type) where
  write : α → List Char
  read : List Char → Option (α × List Char)
  read_write : ∀ a rest, Stops rest → read (write a ++ rest) = some (a, rest)

namespace Codec

variable {α β : Type}

def readAll (c : Codec α) (text : List Char) : Option α :=
  match c.read text with
  | some (a, []) => some a
  | _ => none

theorem readAll_write (c : Codec α) (a : α) : c.readAll (c.write a) = some a := by
  have h := c.read_write a [] trivial
  rw [List.append_nil] at h
  rw [readAll, h]

def partialMap (c : Codec α) (decode : α → Option β) (encode : β → α)
    (h : ∀ b, decode (encode b) = some b) : Codec β where
  write b := c.write (encode b)
  read text := (c.read text).bind fun (a, rest) => (decode a).map (·, rest)
  read_write := by
    intro b rest hrest
    rw [c.read_write _ _ hrest]
    simp [h]

def map (c : Codec α) (decode : α → β) (encode : β → α) (h : ∀ b, decode (encode b) = b) :
    Codec β :=
  c.partialMap (fun a => some (decode a)) encode (fun b => congrArg some (h b))

end Codec

/-! ## Literals -/

def expect : List Char → List Char → Option (List Char)
  | [], rest => some rest
  | _ :: _, [] => none
  | c :: text, d :: rest => if c = d then expect text rest else none

@[simp] theorem expect_append (text rest : List Char) : expect text (text ++ rest) = some rest := by
  induction text with
  | nil => rfl
  | cons c text ih => simpa [expect] using ih

/-! ## Numbers -/

def decimal (n : Nat) : List Char :=
  if n < 10 then [Nat.digitChar n] else decimal (n / 10) ++ [Nat.digitChar (n % 10)]

def digitValue (c : Char) : Option Nat :=
  if c.isDigit then some (c.toNat - '0'.toNat) else none

def readDigits (acc : Nat) : List Char → Nat × List Char
  | [] => (acc, [])
  | c :: rest =>
      match digitValue c with
      | some d => readDigits (10 * acc + d) rest
      | none => (acc, c :: rest)

theorem digitValue_digitChar {d : Nat} (hd : d < 10) :
    digitValue (Nat.digitChar d) = some d := by
  interval_cases d <;> rfl

theorem readDigits_stops (acc : Nat) {rest : List Char} (hrest : Stops rest) :
    readDigits acc rest = (acc, rest) := by
  cases rest with
  | nil => rfl
  | cons c rest => rcases hrest with rfl | rfl | rfl <;> rfl

theorem readDigits_decimal (n acc : Nat) (rest : List Char) :
    readDigits acc (decimal n ++ rest) =
      readDigits (acc * 10 ^ (decimal n).length + n) rest := by
  induction n using Nat.strong_induction_on generalizing acc rest with
  | _ n ih =>
      rw [decimal]
      split_ifs with h
      · simp only [List.cons_append, List.nil_append, readDigits, digitValue_digitChar h,
          List.length_singleton, pow_one, Nat.mul_comm]
      · have hdigit : n % 10 < 10 := Nat.mod_lt n (by omega)
        rw [List.append_assoc, ih (n / 10) (by omega)]
        simp only [List.cons_append, List.nil_append, readDigits, digitValue_digitChar hdigit,
          List.length_append, List.length_singleton, pow_succ]
        congr 1
        have hsplit := Nat.div_add_mod n 10
        rw [← Nat.mul_assoc]
        omega

theorem decimal_ne_nil (n : Nat) : ∃ c rest, decimal n = c :: rest ∧ (digitValue c).isSome := by
  induction n using Nat.strong_induction_on with
  | _ n ih =>
      rw [decimal]
      split_ifs with h
      · exact ⟨_, [], rfl, by rw [digitValue_digitChar h]; rfl⟩
      · obtain ⟨c, rest, heq, hc⟩ := ih (n / 10) (by omega)
        exact ⟨c, rest ++ [Nat.digitChar (n % 10)], by rw [heq]; rfl, hc⟩

def nat : Codec Nat where
  write := decimal
  read text :=
    match text with
    | [] => none
    | c :: _ => if (digitValue c).isSome then some (readDigits 0 text) else none
  read_write := by
    intro n rest hrest
    obtain ⟨c, tail, heq, hc⟩ := decimal_ne_nil n
    have hread := readDigits_decimal n 0 rest
    rw [Nat.zero_mul, Nat.zero_add, readDigits_stops n hrest] at hread
    rw [heq, List.cons_append] at hread ⊢
    simp only [hc, if_true, hread]

def word {α : Type} (bound : Nat) (ofNat : Nat → α) (toNat : α → Nat)
    (hlt : ∀ a, toNat a < bound) (h : ∀ a, ofNat (toNat a) = a) : Codec α :=
  nat.partialMap (fun n => if n < bound then some (ofNat n) else none) toNat
    (fun a => by rw [if_pos (hlt a), h])

def bool : Codec Bool where
  write b := if b then "true".toList else "false".toList
  read text :=
    match expect "true".toList text with
    | some rest => some (true, rest)
    | none => (expect "false".toList text).map (false, ·)
  read_write := by
    intro b rest _
    cases b with
    | true => rw [if_pos rfl, expect_append]
    | false => rfl

/-! ## Strings -/

def hexDigit (n : Nat) : Char := Nat.digitChar n

def hexValue (c : Char) : Option Nat :=
  if c.isDigit then some (c.toNat - '0'.toNat)
  else if 'a' ≤ c ∧ c ≤ 'f' then some (c.toNat - 'a'.toNat + 10)
  else none

def escape (c : Char) : List Char :=
  if c = '"' then ['\\', '"']
  else if c = '\\' then ['\\', '\\']
  else if c.toNat = 8 then ['\\', 'b']
  else if c.toNat = 9 then ['\\', 't']
  else if c.toNat = 10 then ['\\', 'n']
  else if c.toNat = 12 then ['\\', 'f']
  else if c.toNat = 13 then ['\\', 'r']
  else if c.toNat < 32 then ['\\', 'u', '0', '0', hexDigit (c.toNat / 16), hexDigit (c.toNat % 16)]
  else [c]

def unescape (e : Char) : Option Char :=
  if e = '"' ∨ e = '\\' then some e
  else if e = 'b' then some (Char.ofNat 8)
  else if e = 't' then some (Char.ofNat 9)
  else if e = 'n' then some (Char.ofNat 10)
  else if e = 'f' then some (Char.ofNat 12)
  else if e = 'r' then some (Char.ofNat 13)
  else none

def consChar (c : Char) (result : Option (List Char × List Char)) :
    Option (List Char × List Char) :=
  result.map fun r => (c :: r.1, r.2)

def readChars : List Char → Option (List Char × List Char)
  | [] => none
  | '"' :: rest => some ([], rest)
  | '\\' :: 'u' :: '0' :: '0' :: a :: b :: rest =>
      (hexValue a).bind fun high => (hexValue b).bind fun low =>
        consChar (Char.ofNat (16 * high + low)) (readChars rest)
  | '\\' :: e :: rest => (unescape e).bind fun c => consChar c (readChars rest)
  | c :: rest => consChar c (readChars rest)

theorem readChars_plain {c : Char} (hquote : c ≠ '"') (hslash : c ≠ '\\') (text : List Char) :
    readChars (c :: text) = consChar c (readChars text) :=
  readChars.eq_5 c text hquote (fun _ _ _ h _ => hslash h) (fun _ _ h _ => hslash h)

theorem readChars_escaped {e c : Char} (hu : e ≠ 'u') (h : unescape e = some c)
    (text : List Char) : readChars ('\\' :: e :: text) = consChar c (readChars text) := by
  rw [readChars.eq_4 e text fun _ _ _ he _ => hu he, h, Option.bind_some]

theorem readChars_hex {n : Nat} (hn : n < 32) (text : List Char) :
    readChars ('\\' :: 'u' :: '0' :: '0' :: hexDigit (n / 16) :: hexDigit (n % 16) :: text) =
      consChar (Char.ofNat n) (readChars text) := by
  have hhigh : hexValue (hexDigit (n / 16)) = some (n / 16) := by
    interval_cases n <;> rfl
  have hlow : hexValue (hexDigit (n % 16)) = some (n % 16) := by
    interval_cases n <;> rfl
  rw [readChars, hhigh, hlow, Option.bind_some, Option.bind_some, Nat.div_add_mod]

theorem eq_ofNat {c : Char} {n : Nat} (h : c.toNat = n) : c = Char.ofNat n := by
  rw [← h, Char.ofNat_toNat]

theorem readChars_escape (c : Char) (text : List Char) :
    readChars (escape c ++ text) = consChar c (readChars text) := by
  unfold escape
  split_ifs with h1 h2 h3 h4 h5 h6 h7 h8
  · subst h1
    exact readChars_escaped (by decide) rfl text
  · subst h2
    exact readChars_escaped (by decide) rfl text
  · exact eq_ofNat h3 ▸ readChars_escaped (by decide) rfl text
  · exact eq_ofNat h4 ▸ readChars_escaped (by decide) rfl text
  · exact eq_ofNat h5 ▸ readChars_escaped (by decide) rfl text
  · exact eq_ofNat h6 ▸ readChars_escaped (by decide) rfl text
  · exact eq_ofNat h7 ▸ readChars_escaped (by decide) rfl text
  · have hhex := readChars_hex h8 text
    rwa [Char.ofNat_toNat] at hhex
  · exact readChars_plain h1 h2 text

theorem readChars_flatMap (chars rest : List Char) :
    readChars (chars.flatMap escape ++ '"' :: rest) = some (chars, rest) := by
  induction chars with
  | nil => rfl
  | cons c chars ih =>
      rw [List.flatMap_cons, List.append_assoc, readChars_escape, ih]
      rfl

def writeString (s : String) : List Char := '"' :: (s.toList.flatMap escape ++ ['"'])

def readString : List Char → Option (String × List Char)
  | '"' :: rest => (readChars rest).map fun r => (String.ofList r.1, r.2)
  | _ => none

theorem readString_write (s : String) (rest : List Char) :
    readString (writeString s ++ rest) = some (s, rest) := by
  have hread := readChars_flatMap s.toList rest
  simp only [writeString, readString, List.cons_append, List.append_assoc, List.nil_append, hread,
    Option.map_some, String.ofList_toList]

def string : Codec String where
  write := writeString
  read := readString
  read_write := fun s rest _ => readString_write s rest

/-! ## Optional values -/

/-- A value or `null`; no value may be written with an `n` in front. -/
def option {α : Type} (c : Codec α)
    (hfirst : ∀ a, ∃ d tail, c.write a = d :: tail ∧ d ≠ 'n') : Codec (Option α) where
  write
    | none => "null".toList
    | some a => c.write a
  read text :=
    match text with
    | 'n' :: rest => (expect "ull".toList rest).map (none, ·)
    | _ => (c.read text).map fun r => (some r.1, r.2)
  read_write := by
    rintro (- | a) rest hrest
    · exact congrArg (Option.map (none, ·)) (expect_append "ull".toList rest)
    · have hread := c.read_write a rest hrest
      obtain ⟨d, tail, hwrite, hd⟩ := hfirst a
      simp only [hwrite, List.cons_append] at hread ⊢
      simp [hread, hd]

/-! ## Records -/

/-- The fields of an object from some field on, up to the closing brace. -/
structure Fields (α : Type) where
  write : α → List Char
  read : List Char → Option (α × List Char)
  read_write : ∀ a rest, read (write a ++ rest) = some (a, rest)

variable {α β : Type}

def fieldName (name : String) : List Char := '"' :: (name.toList ++ ['"', ':'])

def last (name : String) (c : Codec α) : Fields α where
  write a := fieldName name ++ (c.write a ++ ['}'])
  read text := do
    let rest ← expect (fieldName name) text
    let (a, rest) ← c.read rest
    let rest ← expect ['}'] rest
    some (a, rest)
  read_write := by
    intro a rest
    have hvalue := c.read_write a ('}' :: rest) (Or.inr (Or.inl rfl))
    simp only [List.append_assoc, expect_append, bind, Option.bind, List.cons_append,
      List.nil_append, hvalue]
    rfl

def field (name : String) (c : Codec α) (fields : Fields β) : Fields (α × β) where
  write a := fieldName name ++ (c.write a.1 ++ ',' :: fields.write a.2)
  read text := do
    let rest ← expect (fieldName name) text
    let (a, rest) ← c.read rest
    let rest ← expect [','] rest
    let (b, rest) ← fields.read rest
    some ((a, b), rest)
  read_write := by
    rintro ⟨a, b⟩ rest
    have hvalue := c.read_write a (',' :: (fields.write b ++ rest)) (Or.inl rfl)
    have hcomma : expect [','] (',' :: (fields.write b ++ rest)) = some (fields.write b ++ rest) :=
      rfl
    simp only [List.append_assoc, List.cons_append, expect_append, bind, Option.bind, hvalue,
      hcomma, fields.read_write]

def object (fields : Fields α) : Codec α where
  write a := '{' :: fields.write a
  read text := (expect ['{'] text).bind fields.read
  read_write := by
    intro a rest _
    exact fields.read_write a rest

/-! ## Arrays and maps -/

def entry (c : Codec α) : Codec (String × α) where
  write e := writeString e.1 ++ ':' :: c.write e.2
  read text := do
    let (key, rest) ← readString text
    let rest ← expect [':'] rest
    let (value, rest) ← c.read rest
    some ((key, value), rest)
  read_write := by
    rintro ⟨key, value⟩ rest hrest
    have hcolon : expect [':'] (':' :: (c.write value ++ rest)) = some (c.write value ++ rest) :=
      rfl
    simp only [List.append_assoc, List.cons_append, readString_write, bind, Option.bind, hcolon,
      c.read_write value rest hrest]

def writeMore (close : Char) (c : Codec α) : List α → List Char
  | [] => [close]
  | a :: items => ',' :: (c.write a ++ writeMore close c items)

def readMore (close : Char) (c : Codec α) : Nat → List Char → Option (List α × List Char)
  | 0, _ => none
  | fuel + 1, text => do
      let (a, rest) ← c.read text
      match rest with
      | d :: rest =>
          if d = close then some ([a], rest)
          else if d = ',' then
            (readMore close c fuel rest).map fun r => (a :: r.1, r.2)
          else none
      | [] => none

theorem length_le_writeMore (close : Char) (c : Codec α) (items : List α) :
    items.length < (writeMore close c items).length := by
  induction items with
  | nil => simp [writeMore]
  | cons a items ih => simp [writeMore]; omega

theorem readMore_write {close : Char} (hclose : close = '}' ∨ close = ']') (c : Codec α)
    (items : List α) (a : α) (rest : List Char) (fuel : Nat) (hfuel : items.length < fuel) :
    readMore close c fuel (c.write a ++ (writeMore close c items ++ rest)) =
      some (a :: items, rest) := by
  induction items generalizing a fuel with
  | nil =>
      obtain ⟨fuel, rfl⟩ : ∃ f, fuel = f + 1 := ⟨fuel - 1, by omega⟩
      have hread := c.read_write a (close :: rest) (Or.inr hclose)
      simp [readMore, writeMore, hread]
  | cons b items ih =>
      obtain ⟨fuel, rfl⟩ : ∃ f, fuel = f + 1 := ⟨fuel - 1, by omega⟩
      have hread := c.read_write a
        (',' :: (c.write b ++ (writeMore close c items ++ rest))) (Or.inl rfl)
      have hcomma : ¬(',' = close) := by rcases hclose with rfl | rfl <;> decide
      have hmore := ih b fuel (by simpa using hfuel)
      simp [readMore, writeMore, hread, hcomma, hmore]

def items (opening close : Char) (hclose : close = '}' ∨ close = ']') (c : Codec α)
    (hfirst : ∀ a, ∃ d tail, c.write a = d :: tail ∧ d ≠ close) : Codec (List α) where
  write
    | [] => [opening, close]
    | a :: items => opening :: (c.write a ++ writeMore close c items)
  read text := do
    let rest ← expect [opening] text
    match expect [close] rest with
    | some rest => some ([], rest)
    | none => readMore close c rest.length rest
  read_write := by
    rintro (- | ⟨a, items⟩) rest _
    · simp [expect]
    · obtain ⟨d, tail, hwrite, hd⟩ := hfirst a
      have hnone : expect [close] (c.write a ++ (writeMore close c items ++ rest)) = none := by
        rw [hwrite, List.cons_append, expect, if_neg hd.symm]
      have hfuel : items.length < (c.write a ++ (writeMore close c items ++ rest)).length := by
        have hmore := length_le_writeMore close c items
        simp only [List.length_append]
        omega
      have hread := readMore_write hclose c items a rest _ hfuel
      simp only [List.cons_append, List.append_assoc, expect, if_true, bind, Option.bind, hnone,
        hread]

end Json
