import Msgbus.Lib.ExceptRules
import Msgbus.Lib.OrderedTable
import Mathlib.Logic.Function.Basic

/-!
# Tables whose rows are codes of values

A `RowCode` says under which key a value is kept and as which row.  A table all of
whose rows are codes is a partial map from addresses to values, and writing or
deleting a row is an update of that map, as long as the key of the address is
not shared with another stored value.
-/

universe u

/-- How values of type `α` with addresses in `A` become rows. -/
structure RowCode (A α K V : Type u) where
  key : A → K
  addr : α → A
  value : α → V
  read : K → V → Option α
  read_value : ∀ x, read (key (addr x)) (value x) = some x

namespace RowCode

variable {A α K V : Type u} [DecidableEq A] [LinearOrder K] (c : RowCode A α K V)
  {t : OrderedTable K V} {a : A} {x : α}

def row (x : α) : K × V := (c.key (c.addr x), c.value x)

def Codes (t : OrderedTable K V) : Prop := ∀ e ∈ t.entries, ∃ x, e = c.row x

def view (t : OrderedTable K V) (a : A) : Option α :=
  ((t.get (c.key a)).bind (c.read (c.key a))).filter fun x => c.addr x = a

def Owns (t : OrderedTable K V) (a : A) : Prop :=
  ∀ y, c.row y ∈ t.entries → c.key (c.addr y) = c.key a → c.addr y = a

variable {c}

omit [DecidableEq A] [LinearOrder K] in
theorem row_injective : Function.Injective c.row := by
  intro x y h
  have hx := c.read_value x
  rw [show c.key (c.addr x) = c.key (c.addr y) from congrArg Prod.fst h,
    show c.value x = c.value y from congrArg Prod.snd h, c.read_value] at hx
  exact (Option.some.inj hx).symm

omit [DecidableEq A] in
theorem owns_of_injective (h : Function.Injective c.key) (t : OrderedTable K V) (a : A) :
    c.Owns t a := fun _ _ hkey => h hkey

theorem view_eq_some (ht : c.Codes t) :
    c.view t a = some x ↔ c.row x ∈ t.entries ∧ c.addr x = a := by
  unfold view
  rw [Option.filter_eq_some_iff, Option.bind_eq_some_iff, decide_eq_true_eq]
  constructor
  · rintro ⟨⟨v, hget, hread⟩, rfl⟩
    have hmem := OrderedTable.get_eq_some_iff.mp hget
    obtain ⟨y, hy⟩ := ht _ hmem
    have hkey : c.key (c.addr x) = c.key (c.addr y) := congrArg Prod.fst hy
    have hvalue : v = c.value y := congrArg Prod.snd hy
    rw [hkey, hvalue, c.read_value] at hread
    cases hread
    exact ⟨hy ▸ hmem, rfl⟩
  · rintro ⟨hmem, rfl⟩
    exact ⟨⟨c.value x, OrderedTable.get_eq_some_iff.mpr hmem, c.read_value x⟩, rfl⟩

theorem get_eq (ht : c.Codes t) (ha : c.Owns t a) : t.get (c.key a) = (c.view t a).map c.value := by
  cases hview : c.view t a with
  | some x =>
      obtain ⟨hmem, rfl⟩ := (view_eq_some ht).mp hview
      exact OrderedTable.get_eq_some_iff.mpr hmem
  | none =>
      rw [Option.map_none, OrderedTable.get_eq_none_iff]
      intro v hmem
      obtain ⟨y, hy⟩ := ht _ hmem
      have haddr : c.addr y = a := ha y (hy ▸ hmem) (congrArg Prod.fst hy).symm
      rw [(view_eq_some ht).mpr ⟨hy ▸ hmem, haddr⟩] at hview
      cases hview

theorem get_cases (ht : c.Codes t) (a : A) :
    (∃ x, t.get (c.key a) = some (c.value x) ∧ (c.Owns t a → c.view t a = some x)) ∨
      (t.get (c.key a) = none ∧ c.view t a = none) := by
  cases hget : t.get (c.key a) with
  | none =>
      right
      refine ⟨rfl, ?_⟩
      rw [view, hget]
      rfl
  | some v =>
      left
      have hmem := OrderedTable.get_eq_some_iff.mp hget
      obtain ⟨x, hx⟩ := ht _ hmem
      refine ⟨x, congrArg (some ∘ Prod.snd) hx, fun ha => ?_⟩
      exact (view_eq_some ht).mpr ⟨hx ▸ hmem, ha x (hx ▸ hmem) (congrArg Prod.fst hx).symm⟩

omit [DecidableEq A] in
theorem codes_empty : c.Codes OrderedTable.empty := by
  intro e he
  cases he

omit [DecidableEq A] in
theorem codes_insert (ht : c.Codes t) (x : α) : c.Codes (t.insert (c.row x).1 (c.row x).2) := by
  intro e he
  rcases OrderedTable.mem_entries_insert.mp he with rfl | ⟨he, -⟩
  · exact ⟨x, rfl⟩
  · exact ht e he

omit [DecidableEq A] in
theorem codes_erase (ht : c.Codes t) (k : K) : c.Codes (t.erase k) := by
  intro e he
  exact ht e (OrderedTable.mem_entries_erase.mp he).1

theorem view_insert (ht : c.Codes t) (hx : c.Owns t (c.addr x)) :
    c.view (t.insert (c.row x).1 (c.row x).2) = Function.update (c.view t) (c.addr x) (some x) := by
  funext a
  apply Option.ext
  intro y
  rw [view_eq_some (codes_insert ht x), OrderedTable.mem_entries_insert, Function.update_apply]
  split_ifs with ha
  · subst ha
    constructor
    · rintro ⟨hrow | ⟨hmem, hne⟩, haddr⟩
      · rw [row_injective hrow]
      · exact absurd (congrArg c.key haddr) hne
    · intro hy
      cases hy
      exact ⟨Or.inl rfl, rfl⟩
  · rw [view_eq_some ht]
    constructor
    · rintro ⟨hrow | ⟨hmem, -⟩, haddr⟩
      · rw [row_injective hrow] at haddr
        exact absurd haddr.symm ha
      · exact ⟨hmem, haddr⟩
    · rintro ⟨hmem, rfl⟩
      exact ⟨Or.inr ⟨hmem, fun hkey => ha (hx y hmem hkey)⟩, rfl⟩

theorem view_erase (ht : c.Codes t) (ha : c.Owns t a) :
    c.view (t.erase (c.key a)) = Function.update (c.view t) a none := by
  funext b
  apply Option.ext
  intro y
  rw [view_eq_some (codes_erase ht _), OrderedTable.mem_entries_erase, Function.update_apply]
  split_ifs with hb
  · constructor
    · rintro ⟨⟨-, hne⟩, haddr⟩
      exact absurd (congrArg c.key (haddr.trans hb)) hne
    · intro hy
      cases hy
  · rw [view_eq_some ht]
    constructor
    · rintro ⟨⟨hmem, -⟩, haddr⟩
      exact ⟨hmem, haddr⟩
    · rintro ⟨hmem, rfl⟩
      exact ⟨⟨hmem, fun hkey => hb (ha y hmem hkey)⟩, rfl⟩

/-- Reading every row of a table lists the values in it, each once. -/
theorem mapM_entries {ε : Type u} {f : K × V → Except ε α} (hf : ∀ x, f (c.row x) = .ok x)
    (ht : c.Codes t) :
    ∃ r, t.entries.mapM f = .ok r ∧ r.Nodup ∧ ∀ x, x ∈ r ↔ c.view t (c.addr x) = some x := by
  obtain ⟨r, hr⟩ : ∃ r, t.entries.mapM f = .ok r := by
    apply Except.exists_mapM_ok
    intro e he
    obtain ⟨x, rfl⟩ := ht e he
    exact ⟨x, hf x⟩
  refine ⟨r, hr, ?_, ?_⟩
  · apply Except.nodup_of_mapM_eq_ok hr
    refine t.sorted.imp_of_mem ?_
    intro e e' he he' hlt x hx hx'
    obtain ⟨y, rfl⟩ := ht e he
    obtain ⟨z, rfl⟩ := ht e' he'
    rw [hf] at hx hx'
    rw [Except.ok.inj hx, Except.ok.inj hx'] at hlt
    exact lt_irrefl _ hlt
  · intro x
    rw [Except.mem_of_mapM_eq_ok hr, view_eq_some ht]
    constructor
    · rintro ⟨e, he, hx⟩
      obtain ⟨y, rfl⟩ := ht e he
      rw [hf] at hx
      cases hx
      exact ⟨he, rfl⟩
    · rintro ⟨hmem, -⟩
      exact ⟨_, hmem, hf x⟩

end RowCode
