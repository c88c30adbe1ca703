import Mathlib.Data.List.Sort
import Mathlib.Order.Basic

/-!
# Ordered tables

A finite table keyed by a linear order, as an embedded database shows one to
its callers: point reads and writes, an update of every row, and scans that
return the rows in key order.  The entries are a strictly sorted list, so a
table with two rows under one key cannot be built, and the order of a scan is
the order of the list.
-/

universe u v

structure OrderedTable (K : Type u) (V : Type v) [LinearOrder K] where
  entries : List (K × V)
  sorted : entries.Pairwise (fun a b => a.1 < b.1)

namespace OrderedTable

variable {K : Type u} {V : Type v} [LinearOrder K]

instance [DecidableEq V] : DecidableEq (OrderedTable K V) := fun a b =>
  decidable_of_iff (a.entries = b.entries) (by cases a; cases b; simp)

def empty : OrderedTable K V := ⟨[], List.Pairwise.nil⟩

instance : Inhabited (OrderedTable K V) := ⟨empty⟩

def get (t : OrderedTable K V) (k : K) : Option V :=
  (t.entries.find? (fun e => e.1 = k)).map Prod.snd

/-- Put a row in its place in a sorted list of rows, replacing the one that has
its key. -/
def insertEntry (k : K) (v : V) : List (K × V) → List (K × V)
  | [] => [(k, v)]
  | e :: rest =>
      if k < e.1 then (k, v) :: e :: rest
      else if k = e.1 then (k, v) :: rest
      else e :: insertEntry k v rest

theorem mem_insertEntry {k : K} {v : V} {l : List (K × V)} {e : K × V}
    (hsorted : l.Pairwise (fun a b => a.1 < b.1)) :
    e ∈ insertEntry k v l ↔ e = (k, v) ∨ (e ∈ l ∧ e.1 ≠ k) := by
  induction l with
  | nil => simp [insertEntry]
  | cons x rest ih =>
      have hrest := (List.pairwise_cons.mp hsorted).2
      have habove : ∀ y ∈ rest, x.1 < y.1 := (List.pairwise_cons.mp hsorted).1
      simp only [insertEntry]
      split_ifs with hlt heq
      · have hne : ∀ y ∈ x :: rest, y.1 ≠ k := by
          intro y hy hyk
          rcases List.mem_cons.mp hy with rfl | hy
          · exact absurd hyk hlt.ne'
          · exact absurd hyk (hlt.trans (habove y hy)).ne'
        constructor
        · intro he
          rcases List.mem_cons.mp he with he | he
          · exact Or.inl he
          · exact Or.inr ⟨he, hne e he⟩
        · rintro (he | ⟨he, -⟩)
          · exact he ▸ List.mem_cons_self
          · exact List.mem_cons_of_mem _ he
      · have hne : ∀ y ∈ rest, y.1 ≠ k := by
          intro y hy hyk
          exact absurd (hyk.trans heq) (habove y hy).ne'
        constructor
        · intro he
          rcases List.mem_cons.mp he with he | he
          · exact Or.inl he
          · exact Or.inr ⟨List.mem_cons_of_mem _ he, hne e he⟩
        · rintro (he | ⟨he, hek⟩)
          · exact he ▸ List.mem_cons_self
          · rcases List.mem_cons.mp he with rfl | he
            · exact absurd heq.symm hek
            · exact List.mem_cons_of_mem _ he
      · rw [List.mem_cons, ih hrest]
        constructor
        · rintro (rfl | he | ⟨he, hek⟩)
          · exact Or.inr ⟨List.mem_cons_self, fun h => heq h.symm⟩
          · exact Or.inl he
          · exact Or.inr ⟨List.mem_cons_of_mem _ he, hek⟩
        · rintro (he | ⟨he, hek⟩)
          · exact Or.inr (Or.inl he)
          · rcases List.mem_cons.mp he with rfl | he
            · exact Or.inl rfl
            · exact Or.inr (Or.inr ⟨he, hek⟩)

theorem insertEntry_sorted {k : K} {v : V} {l : List (K × V)}
    (hsorted : l.Pairwise (fun a b => a.1 < b.1)) :
    (insertEntry k v l).Pairwise (fun a b => a.1 < b.1) := by
  induction l with
  | nil => simp [insertEntry]
  | cons x rest ih =>
      obtain ⟨habove, hrest⟩ := List.pairwise_cons.mp hsorted
      simp only [insertEntry]
      split_ifs with hlt heq
      · refine List.pairwise_cons.mpr ⟨?_, hsorted⟩
        intro y hy
        rcases List.mem_cons.mp hy with rfl | hy
        · exact hlt
        · exact hlt.trans (habove y hy)
      · refine List.pairwise_cons.mpr ⟨?_, hrest⟩
        intro y hy
        exact heq ▸ habove y hy
      · refine List.pairwise_cons.mpr ⟨?_, ih hrest⟩
        intro y hy
        rcases (mem_insertEntry hrest).mp hy with rfl | ⟨hy, -⟩
        · exact lt_of_le_of_ne (not_lt.mp hlt) (fun h => heq h.symm)
        · exact habove y hy

def insert (t : OrderedTable K V) (k : K) (v : V) : OrderedTable K V :=
  ⟨insertEntry k v t.entries, insertEntry_sorted t.sorted⟩

def erase (t : OrderedTable K V) (k : K) : OrderedTable K V :=
  ⟨t.entries.filter (fun e => e.1 ≠ k), t.sorted.filter _⟩

def mapValues (t : OrderedTable K V) (f : K → V → V) : OrderedTable K V :=
  ⟨t.entries.map (fun e => (e.1, f e.1 e.2)), by
    rw [List.pairwise_map]
    exact t.sorted⟩

def rangeFrom (t : OrderedTable K V) (k : K) : List (K × V) :=
  t.entries.filter (fun e => k ≤ e.1)

/-! ## Point reads -/

theorem get_eq_some_iff {t : OrderedTable K V} {k : K} {v : V} :
    t.get k = some v ↔ (k, v) ∈ t.entries := by
  obtain ⟨l, hsorted⟩ := t
  simp only [get]
  induction l with
  | nil => simp
  | cons x rest ih =>
      obtain ⟨habove, hrest⟩ := List.pairwise_cons.mp hsorted
      by_cases hx : x.1 = k
      · have hnot : (k, v) ∉ rest := fun h => absurd hx (habove _ h).ne
        have hxv : (k, v) = x ↔ x.2 = v := by
          constructor
          · rintro rfl
            rfl
          · rintro rfl
            exact Prod.ext hx.symm rfl
        rw [List.find?_cons_of_pos (by simp [hx]), List.mem_cons, hxv]
        simp [hnot]
      · have hne : (k, v) ≠ x := fun h => hx (h ▸ rfl)
        rw [List.find?_cons_of_neg (by simp [hx]), List.mem_cons, ih hrest]
        simp [hne]

theorem get_eq_none_iff {t : OrderedTable K V} {k : K} :
    t.get k = none ↔ ∀ v, (k, v) ∉ t.entries := by
  rw [Option.eq_none_iff_forall_ne_some]
  exact forall_congr' fun v => not_congr get_eq_some_iff

@[simp] theorem get_empty (k : K) : (empty : OrderedTable K V).get k = none := rfl

theorem get_insert (t : OrderedTable K V) (k k' : K) (v : V) :
    (t.insert k v).get k' = if k' = k then some v else t.get k' := by
  apply Option.ext
  intro w
  rw [get_eq_some_iff, insert, mem_insertEntry t.sorted]
  split_ifs with hk
  · simp [hk, eq_comm]
  · simp [hk, get_eq_some_iff]

theorem get_insert_of_ne (t : OrderedTable K V) {k k' : K} (v : V) (h : k' ≠ k) :
    (t.insert k v).get k' = t.get k' := by
  rw [get_insert, if_neg h]

theorem get_mapValues (t : OrderedTable K V) (f : K → V → V) (k : K) :
    (t.mapValues f).get k = (t.get k).map (f k) := by
  apply Option.ext
  intro w
  rw [get_eq_some_iff, mapValues, List.mem_map, Option.map_eq_some_iff]
  constructor
  · rintro ⟨⟨k', v⟩, hmem, heq⟩
    obtain ⟨rfl, rfl⟩ := Prod.mk.inj heq
    exact ⟨v, get_eq_some_iff.mpr hmem, rfl⟩
  · rintro ⟨v, hget, rfl⟩
    exact ⟨(k, v), get_eq_some_iff.mp hget, rfl⟩

/-! ## Scans -/

theorem mem_entries_insert {t : OrderedTable K V} {k : K} {v : V} {e : K × V} :
    e ∈ (t.insert k v).entries ↔ e = (k, v) ∨ (e ∈ t.entries ∧ e.1 ≠ k) :=
  mem_insertEntry t.sorted

theorem mem_entries_erase {t : OrderedTable K V} {k : K} {e : K × V} :
    e ∈ (t.erase k).entries ↔ e ∈ t.entries ∧ e.1 ≠ k := by
  simp [erase]

theorem mem_entries_mapValues {t : OrderedTable K V} {f : K → V → V} {e : K × V} :
    e ∈ (t.mapValues f).entries ↔ ∃ v, (e.1, v) ∈ t.entries ∧ e.2 = f e.1 v := by
  simp only [mapValues, List.mem_map]
  constructor
  · rintro ⟨x, hx, rfl⟩
    exact ⟨x.2, hx, rfl⟩
  · rintro ⟨v, hv, he⟩
    exact ⟨(e.1, v), hv, Prod.ext rfl he.symm⟩

def insertAll (t : OrderedTable K V) (rows : List (K × V)) : OrderedTable K V :=
  rows.foldl (fun t row => t.insert row.1 row.2) t

theorem mem_entries_insertAll {t : OrderedTable K V} {rows : List (K × V)} {e : K × V}
    (hrows : rows.Pairwise (fun a b => a.1 ≠ b.1)) :
    e ∈ (t.insertAll rows).entries ↔
      e ∈ rows ∨ (e ∈ t.entries ∧ ∀ row ∈ rows, row.1 ≠ e.1) := by
  induction rows generalizing t with
  | nil => simp [insertAll]
  | cons row rows ih =>
      obtain ⟨hrow, hrows⟩ := List.pairwise_cons.mp hrows
      have hstep : t.insertAll (row :: rows) = (t.insert row.1 row.2).insertAll rows := rfl
      rw [hstep, ih hrows, mem_entries_insert, List.mem_cons]
      constructor
      · rintro (he | ⟨rfl | ⟨he, hne⟩, hall⟩)
        · exact Or.inl (Or.inr he)
        · exact Or.inl (Or.inl rfl)
        · refine Or.inr ⟨he, ?_⟩
          intro r hr
          rcases List.mem_cons.mp hr with rfl | hr
          · exact hne.symm
          · exact hall r hr
      · rintro ((rfl | he) | ⟨he, hall⟩)
        · exact Or.inr ⟨Or.inl rfl, fun r hr => (hrow r hr).symm⟩
        · exact Or.inl he
        · exact Or.inr ⟨Or.inr ⟨he, (hall row List.mem_cons_self).symm⟩,
            fun r hr => hall r (List.mem_cons_of_mem _ hr)⟩

theorem get_insertAll_of_mem {t : OrderedTable K V} {rows : List (K × V)} {k : K} {v : V}
    (hrows : rows.Pairwise (fun a b => a.1 ≠ b.1)) (h : (k, v) ∈ rows) :
    (t.insertAll rows).get k = some v :=
  get_eq_some_iff.mpr ((mem_entries_insertAll hrows).mpr (Or.inl h))

theorem get_insertAll_of_forall_ne {t : OrderedTable K V} {rows : List (K × V)} {k : K}
    (h : ∀ row ∈ rows, row.1 ≠ k) : (t.insertAll rows).get k = t.get k := by
  induction rows generalizing t with
  | nil => rfl
  | cons row rows ih =>
      have hstep : t.insertAll (row :: rows) = (t.insert row.1 row.2).insertAll rows := rfl
      rw [hstep, ih fun r hr => h r (List.mem_cons_of_mem _ hr),
        get_insert_of_ne _ _ (h row List.mem_cons_self).symm]

theorem rangeFrom_sorted (t : OrderedTable K V) (k : K) :
    (t.rangeFrom k).Pairwise (fun a b => a.1 < b.1) :=
  t.sorted.filter _

theorem scan_ext {l₁ l₂ : List (K × V)}
    (h₁ : l₁.Pairwise (fun a b => a.1 < b.1)) (h₂ : l₂.Pairwise (fun a b => a.1 < b.1))
    (hmem : ∀ e, e ∈ l₁ ↔ e ∈ l₂) : l₁ = l₂ := by
  have hnodup : ∀ {l : List (K × V)}, l.Pairwise (fun a b => a.1 < b.1) → l.Nodup :=
    fun h => h.imp (fun hlt heq => absurd (heq ▸ hlt) (lt_irrefl _))
  refine List.Perm.eq_of_pairwise ?_ h₁ h₂
    ((List.perm_ext_iff_of_nodup (hnodup h₁) (hnodup h₂)).mpr hmem)
  intro a b _ _ hab hba
  exact absurd (hab.trans hba) (lt_irrefl _)

theorem ext_mem {t t' : OrderedTable K V} (h : ∀ e, e ∈ t.entries ↔ e ∈ t'.entries) : t = t' := by
  have hentries := scan_ext t.sorted t'.sorted h
  cases t
  cases t'
  cases hentries
  rfl

theorem mapValues_eq_insert {t : OrderedTable K V} {k : K} {v : V} {f : K → V → V}
    (h : t.get k = some v) (hf : ∀ k', k' ≠ k → ∀ v', f k' v' = v') :
    t.mapValues f = t.insert k (f k v) := by
  apply ext_mem
  rintro ⟨k', v'⟩
  rw [← get_eq_some_iff, ← get_eq_some_iff, get_mapValues, get_insert]
  split_ifs with hk
  · rw [hk, h, Option.map_some]
  · rw [show f k' = id from funext (hf k' hk), Option.map_id_fun, id]

theorem of_head?_filter {t : OrderedTable K V} {p : K × V → Bool} {e : K × V}
    (h : (t.entries.filter p).head? = some e) :
    e ∈ t.entries ∧ p e = true ∧ ∀ e' ∈ t.entries, p e' = true → e.1 ≤ e'.1 := by
  have hsorted := t.sorted.filter p
  cases hrows : t.entries.filter p with
  | nil =>
      rw [hrows] at h
      cases h
  | cons e' rest =>
      rw [hrows, List.head?_cons, Option.some.injEq] at h
      subst h
      rw [hrows, List.pairwise_cons] at hsorted
      have hmem : e' ∈ t.entries.filter p := by
        rw [hrows]
        exact List.mem_cons_self
      refine ⟨(List.mem_filter.mp hmem).1, (List.mem_filter.mp hmem).2, ?_⟩
      intro x hx hpx
      have hx' : x ∈ t.entries.filter p := List.mem_filter.mpr ⟨hx, hpx⟩
      rw [hrows] at hx'
      rcases List.mem_cons.mp hx' with rfl | hrest
      · exact le_rfl
      · exact (hsorted.1 x hrest).le

end OrderedTable

/-- A scan that stops at the first row failing `p` has read exactly the rows
that satisfy `p`, when no row satisfies it after one that fails. -/
theorem List.takeWhile_eq_filter_of_pairwise {α : Type u} {p : α → Bool} {l : List α}
    (h : l.Pairwise (fun a b => p b = true → p a = true)) :
    l.takeWhile p = l.filter p := by
  induction l with
  | nil => rfl
  | cons x rest ih =>
      obtain ⟨hx, hrest⟩ := List.pairwise_cons.mp h
      by_cases hp : p x = true
      · rw [List.takeWhile_cons_of_pos hp, List.filter_cons_of_pos hp, ih hrest]
      · rw [List.takeWhile_cons_of_neg hp, List.filter_cons_of_neg hp, eq_comm,
          List.filter_eq_nil_iff]
        exact fun y hy hpy => hp (hx y hy hpy)
