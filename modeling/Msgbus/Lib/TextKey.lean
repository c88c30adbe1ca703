import Mathlib.Data.List.Lex
import Mathlib.Data.String.Basic
import Mathlib.Data.Nat.Digits.Defs
import Mathlib.Tactic.IntervalCases

/-!
# Text keys

Facts about keys that are built by joining pieces of text: pieces that do not
contain the separator can be read back, the texts with a given prefix are an
interval of the lexicographic order, and numbers written with a fixed number of
decimal digits compare as text the way they compare as numbers.
-/

namespace TextKey

/-! ## Joined pieces -/

section Separated

variable {α : Type*} {sep : α}

theorem append_sep_inj {a a' r r' : List α} (ha : sep ∉ a) (ha' : sep ∉ a')
    (h : a ++ sep :: r = a' ++ sep :: r') : a = a' ∧ r = r' := by
  induction a generalizing a' with
  | nil =>
      cases a' with
      | nil => simpa using h
      | cons x a' =>
          have hx : sep = x := (List.cons.inj h).1
          exact absurd (hx ▸ List.mem_cons_self) ha'
  | cons x a ih =>
      cases a' with
      | nil =>
          have hx : x = sep := (List.cons.inj h).1
          exact absurd (hx ▸ List.mem_cons_self) ha
      | cons y a' =>
          obtain ⟨rfl, htail⟩ := List.cons.inj h
          have hrec := ih (fun hm => ha (List.mem_cons_of_mem _ hm))
            (fun hm => ha' (List.mem_cons_of_mem _ hm)) htail
          exact ⟨by rw [hrec.1], hrec.2⟩

/-- A joined key starts with a joined prefix exactly when the first pieces
agree and the rest continues the prefix. -/
theorem append_sep_isPrefix_iff {a a' r r' : List α} (ha : sep ∉ a) (ha' : sep ∉ a') :
    (a ++ sep :: r) <+: (a' ++ sep :: r') ↔ a = a' ∧ r <+: r' := by
  constructor
  · rintro ⟨t, ht⟩
    rw [List.append_assoc, List.cons_append] at ht
    obtain ⟨rfl, hr⟩ := append_sep_inj ha ha' ht
    exact ⟨rfl, t, hr⟩
  · rintro ⟨rfl, t, rfl⟩
    exact ⟨t, by simp⟩

variable [DecidableEq α]

theorem sep_notMem_of_mem_splitOn {xs piece : List α} (h : piece ∈ xs.splitOn sep) :
    sep ∉ piece := by
  unfold List.splitOn at h
  induction xs generalizing piece with
  | nil =>
      rw [List.splitOnP_nil, List.mem_singleton] at h
      rw [h]
      exact List.not_mem_nil
  | cons x xs ih =>
      rw [List.splitOnP_cons_eq_if_modifyHead] at h
      split_ifs at h with hx
      · rcases List.mem_cons.mp h with rfl | hrest
        · exact List.not_mem_nil
        · exact ih hrest
      · cases hsplit : xs.splitOnP (· == sep) with
        | nil =>
            rw [hsplit] at h
            exact absurd h List.not_mem_nil
        | cons first rest =>
            rw [hsplit] at h ih
            rcases List.mem_cons.mp h with rfl | hrest
            · rw [List.mem_cons, not_or]
              refine ⟨?_, ih List.mem_cons_self⟩
              rintro rfl
              exact hx (beq_self_eq_true _)
            · exact ih (List.mem_cons_of_mem _ hrest)

theorem splitOn_eq_iff {xs : List α} {pieces : List (List α)} :
    xs.splitOn sep = pieces ↔
      pieces ≠ [] ∧ (∀ piece ∈ pieces, sep ∉ piece) ∧ xs = [sep].intercalate pieces := by
  constructor
  · rintro rfl
    refine ⟨?_, fun piece hpiece => sep_notMem_of_mem_splitOn hpiece, ?_⟩
    · exact List.splitOnP_ne_nil _ xs
    · exact (List.intercalate_splitOn sep).symm
  · rintro ⟨hne, hpieces, rfl⟩
    exact List.splitOn_intercalate sep hpieces hne

/-- The texts before and after the last separator. -/
def rsplitOnce (sep : α) : List α → Option (List α × List α)
  | [] => none
  | x :: xs =>
      match rsplitOnce sep xs with
      | some (before, after) => some (x :: before, after)
      | none => if x = sep then some ([], xs) else none

theorem rsplitOnce_eq_none {xs : List α} : rsplitOnce sep xs = none ↔ sep ∉ xs := by
  induction xs with
  | nil => simp [rsplitOnce]
  | cons x xs ih =>
      rw [List.mem_cons, not_or, ← ih, rsplitOnce]
      cases rsplitOnce sep xs with
      | some split => simp
      | none => simp [eq_comm]

theorem eq_of_rsplitOnce {xs before after : List α}
    (h : rsplitOnce sep xs = some (before, after)) : xs = before ++ sep :: after ∧ sep ∉ after := by
  induction xs generalizing before with
  | nil => exact absurd h (by simp [rsplitOnce])
  | cons x xs ih =>
      rw [rsplitOnce] at h
      cases hsplit : rsplitOnce sep xs with
      | some split =>
          simp only [hsplit, Option.some.injEq, Prod.mk.injEq] at h
          obtain ⟨rfl, rfl⟩ := h
          obtain ⟨heq, hnot⟩ := ih hsplit
          exact ⟨congrArg (x :: ·) heq, hnot⟩
      | none =>
          simp only [hsplit] at h
          split_ifs at h with hx
          cases h
          exact ⟨by rw [hx, List.nil_append], rsplitOnce_eq_none.mp hsplit⟩

theorem rsplitOnce_append {after : List α} (h : sep ∉ after) (before : List α) :
    rsplitOnce sep (before ++ sep :: after) = some (before, after) := by
  induction before with
  | nil => rw [List.nil_append, rsplitOnce, rsplitOnce_eq_none.mpr h, if_pos rfl]
  | cons x before ih => rw [List.cons_append, rsplitOnce, ih]

end Separated

/-! ## Prefixes are intervals -/

section Interval

variable {α : Type*} [LinearOrder α]

theorem isPrefix_of_between {p x y z : List α} (hx : p <+: x) (hz : p <+: z)
    (hxy : ¬ y < x) (hyz : ¬ z < y) : p <+: y := by
  induction p generalizing x y z with
  | nil => exact List.nil_prefix
  | cons c p ih =>
      obtain ⟨x', rfl, hx'⟩ : ∃ x', x = c :: x' ∧ p <+: x' := by
        obtain ⟨t, rfl⟩ := hx
        exact ⟨p ++ t, rfl, t, rfl⟩
      obtain ⟨z', rfl, hz'⟩ : ∃ z', z = c :: z' ∧ p <+: z' := by
        obtain ⟨t, rfl⟩ := hz
        exact ⟨p ++ t, rfl, t, rfl⟩
      cases y with
      | nil => exact absurd (List.nil_lt_cons c x') hxy
      | cons d y =>
          rw [List.cons_lt_cons_iff, not_or, not_and] at hxy hyz
          obtain rfl : c = d := le_antisymm (not_lt.mp hxy.1) (not_lt.mp hyz.1)
          obtain ⟨t, rfl⟩ := ih hx' hz' (hxy.2 rfl) (hyz.2 rfl)
          exact ⟨t, rfl⟩

theorem append_lt_append_iff (p : List α) {x y : List α} :
    p ++ x < p ++ y ↔ x < y := by
  induction p with
  | nil => rfl
  | cons c p ih => simp [ih]

/-- Texts whose first pieces have one length compare by these, then by the rest. -/
theorem append_lt_append_iff_of_length {a b x y : List α} (h : a.length = b.length) :
    a ++ x < b ++ y ↔ a < b ∨ a = b ∧ x < y := by
  induction a generalizing b with
  | nil =>
      cases b with
      | nil => simp
      | cons d b => simp at h
  | cons c a ih =>
      cases b with
      | nil => simp at h
      | cons d b =>
          rw [List.cons_append, List.cons_append, List.cons_lt_cons_iff, List.cons_lt_cons_iff,
            List.cons.injEq, ih (Nat.succ.inj h), and_or_left, or_assoc, and_assoc]

end Interval

/-! ## Fixed-width decimals -/

/-- `n` in decimal with `width` digits, padded with zeros on the left. -/
def padded : Nat → Nat → List Char
  | 0, _ => []
  | width + 1, n => Nat.digitChar (n / 10 ^ width) :: padded width (n % 10 ^ width)

@[simp] theorem length_padded (width n : Nat) : (padded width n).length = width := by
  induction width generalizing n with
  | zero => rfl
  | succ width ih => simp [padded, ih]

theorem digitChar_lt_iff {a b : Nat} (ha : a < 10) (hb : b < 10) :
    Nat.digitChar a < Nat.digitChar b ↔ a < b := by
  interval_cases a <;> interval_cases b <;> decide

theorem digitChar_inj {a b : Nat} (ha : a < 10) (hb : b < 10) :
    Nat.digitChar a = Nat.digitChar b ↔ a = b := by
  interval_cases a <;> interval_cases b <;> decide

theorem padded_lt_iff {width a b : Nat} (ha : a < 10 ^ width) (hb : b < 10 ^ width) :
    padded width a < padded width b ↔ a < b := by
  induction width generalizing a b with
  | zero =>
      have hab : a = b := by simp at ha hb; omega
      simp [padded, hab]
  | succ width ih =>
      have hpos : 0 < 10 ^ width := by positivity
      have hda : a / 10 ^ width < 10 := Nat.div_lt_of_lt_mul (by rw [← pow_succ]; exact ha)
      have hdb : b / 10 ^ width < 10 := Nat.div_lt_of_lt_mul (by rw [← pow_succ]; exact hb)
      have hsplita := Nat.div_add_mod a (10 ^ width)
      have hsplitb := Nat.div_add_mod b (10 ^ width)
      have hma := Nat.mod_lt a hpos
      have hmb := Nat.mod_lt b hpos
      rw [padded, padded, List.cons_lt_cons_iff, digitChar_lt_iff hda hdb,
        digitChar_inj hda hdb, ih hma hmb]
      constructor
      · rintro (hlt | ⟨heq, hlt⟩)
        · have hstep : 10 ^ width * (a / 10 ^ width + 1) ≤ 10 ^ width * (b / 10 ^ width) :=
            Nat.mul_le_mul_left _ hlt
          rw [Nat.mul_add, Nat.mul_one] at hstep
          omega
        · rw [heq] at hsplita
          omega
      · intro hlt
        rcases Nat.lt_trichotomy (a / 10 ^ width) (b / 10 ^ width) with h | h | h
        · exact Or.inl h
        · rw [h] at hsplita
          exact Or.inr ⟨h, by omega⟩
        · have hle := Nat.div_le_div_right (c := 10 ^ width) hlt.le
          omega

theorem padded_inj {width a b : Nat} (ha : a < 10 ^ width) (hb : b < 10 ^ width)
    (h : padded width a = padded width b) : a = b := by
  rcases Nat.lt_trichotomy a b with hab | hab | hab
  · exact absurd ((padded_lt_iff ha hb).mpr hab) (by rw [h]; exact lt_irrefl _)
  · exact hab
  · exact absurd ((padded_lt_iff hb ha).mpr hab) (by rw [h]; exact lt_irrefl _)

end TextKey
