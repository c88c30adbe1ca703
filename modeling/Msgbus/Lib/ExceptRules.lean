import Mathlib.Data.List.Forall2

/-!
# Computations that may fail

Rules for `Except` that take a computation apart at its first step, for loops
over a list that stop at the first error, and for two computations that go the
same way.
-/

namespace Except

universe u v

variable {ε : Type u} {α β : Type v}

theorem bind_of_ok {x : Except ε α} {a : α} (h : x = .ok a) (f : α → Except ε β) :
    (x >>= f) = f a := by
  rw [h]
  rfl

theorem bind_eq_ok {x : Except ε α} {f : α → Except ε β} {b : β} :
    (x >>= f) = .ok b ↔ ∃ a, x = .ok a ∧ f a = .ok b := by
  cases x with
  | error e =>
      constructor
      · intro h
        cases h
      · rintro ⟨a, h, -⟩
        cases h
  | ok a =>
      constructor
      · intro h
        exact ⟨a, rfl, h⟩
      · rintro ⟨a', h, hf⟩
        cases h
        exact hf

theorem mapError_eq_ok {ε' : Type*} {r : Except ε α} {f : ε → ε'} {a : α} :
    r.mapError f = .ok a ↔ r = .ok a := by
  cases r <;> simp [Except.mapError]

theorem map_eq_ok {x : Except ε α} {f : α → β} {b : β} :
    x.map f = .ok b ↔ ∃ a, x = .ok a ∧ f a = b := by
  cases x with
  | error e =>
      constructor
      · intro h
        cases h
      · rintro ⟨a, h, -⟩
        cases h
  | ok a => simp [Except.map]

theorem exists_map_ok_iff {x : Except ε α} {f : α → β} :
    (∃ b, x.map f = .ok b) ↔ ∃ a, x = .ok a := by
  simp only [map_eq_ok]
  constructor
  · rintro ⟨b, a, h, -⟩
    exact ⟨a, h⟩
  · rintro ⟨a, h⟩
    exact ⟨f a, a, h, rfl⟩

/-- A loop succeeds exactly when every round does. -/
theorem mapM_eq_ok {f : α → Except ε β} {l : List α} {r : List β} :
    l.mapM f = .ok r ↔ List.Forall₂ (fun a b => f a = .ok b) l r := by
  induction l generalizing r with
  | nil =>
      rw [List.forall₂_nil_left_iff]
      constructor
      · intro h
        cases h
        rfl
      · rintro rfl
        rfl
  | cons a l ih =>
      rw [List.mapM_cons, bind_eq_ok, List.forall₂_cons_left_iff]
      simp only [bind_eq_ok, ih]
      constructor
      · rintro ⟨b, hb, bs, hbs, hr⟩
        cases hr
        exact ⟨b, bs, hb, hbs, rfl⟩
      · rintro ⟨b, bs, hb, hbs, rfl⟩
        exact ⟨b, hb, bs, hbs, rfl⟩

theorem exists_mapM_ok {f : α → Except ε β} {l : List α} (h : ∀ a ∈ l, ∃ b, f a = .ok b) :
    ∃ r, l.mapM f = .ok r := by
  induction l with
  | nil => exact ⟨[], rfl⟩
  | cons a l ih =>
      obtain ⟨b, hb⟩ := h a List.mem_cons_self
      obtain ⟨bs, hbs⟩ := ih fun x hx => h x (List.mem_cons_of_mem _ hx)
      exact ⟨b :: bs, mapM_eq_ok.mpr (.cons hb (mapM_eq_ok.mp hbs))⟩

theorem exists_of_mapM_eq_ok {f : α → Except ε β} {l : List α} {r : List β}
    (h : l.mapM f = .ok r) {a : α} (ha : a ∈ l) : ∃ b, f a = .ok b := by
  have hall := mapM_eq_ok.mp h
  clear h
  induction hall with
  | nil => cases ha
  | @cons a' b l r hab _ ih =>
      rcases List.mem_cons.mp ha with rfl | ha
      · exact ⟨b, hab⟩
      · exact ih ha

theorem mem_of_mapM_eq_ok {f : α → Except ε β} {l : List α} {r : List β}
    (h : l.mapM f = .ok r) {b : β} : b ∈ r ↔ ∃ a ∈ l, f a = .ok b := by
  have hall := mapM_eq_ok.mp h
  clear h
  induction hall with
  | nil => simp
  | @cons a b' l r hab _ ih =>
      rw [List.mem_cons]
      constructor
      · rintro (rfl | hb)
        · exact ⟨a, List.mem_cons_self, hab⟩
        · obtain ⟨x, hx, hfx⟩ := ih.mp hb
          exact ⟨x, List.mem_cons_of_mem _ hx, hfx⟩
      · rintro ⟨x, hx, hfx⟩
        rcases List.mem_cons.mp hx with rfl | hx
        · rw [hab, Except.ok.injEq] at hfx
          exact Or.inl hfx.symm
        · exact Or.inr (ih.mpr ⟨x, hx, hfx⟩)

theorem nodup_of_mapM_eq_ok {f : α → Except ε β} {l : List α} {r : List β}
    (h : l.mapM f = .ok r)
    (hl : l.Pairwise (fun a a' => ∀ b, f a = .ok b → f a' = .ok b → False)) : r.Nodup := by
  have hall := mapM_eq_ok.mp h
  clear h
  induction hall with
  | nil => exact List.nodup_nil
  | @cons a b l r hab hrest ih =>
      obtain ⟨ha, hl⟩ := List.pairwise_cons.mp hl
      refine List.nodup_cons.mpr ⟨?_, ih hl⟩
      intro hmem
      obtain ⟨x, hx, hfx⟩ := (mem_of_mapM_eq_ok (mapM_eq_ok.mpr hrest)).mp hmem
      exact ha x hx b hab hfx

/-! ## Two computations -/

section Related

variable {α' β' : Type v} {R : α → β → Prop} {Q : α' → β' → Prop}

def Related (R : α → β → Prop) : Except ε α → Except ε β → Prop
  | .ok a, .ok b => R a b
  | .error e, .error e' => e = e'
  | _, _ => False

theorem Related.of_eq {x y : Except ε α} (h : x = y) : Related Eq x y := by
  cases h
  cases x with
  | ok a => exact rfl
  | error e => exact rfl

theorem Related.bind {x : Except ε α} {y : Except ε β} {f : α → Except ε α'} {g : β → Except ε β'}
    (h : Related R x y) (hf : ∀ a b, R a b → Related Q (f a) (g b)) :
    Related Q (x >>= f) (y >>= g) := by
  cases x with
  | ok a =>
      cases y with
      | ok b => exact hf a b h
      | error e => exact absurd h id
  | error e =>
      cases y with
      | ok b => exact absurd h id
      | error e' => exact h

theorem Related.bind_same {x : Except ε α} {f : α → Except ε α'} {g : α → Except ε β'}
    (hf : ∀ a, Related Q (f a) (g a)) : Related Q (x >>= f) (x >>= g) := by
  refine Related.bind (Related.of_eq rfl) ?_
  rintro a b rfl
  exact hf a

theorem Related.ite {c : Prop} [Decidable c] {x x' : Except ε α} {y y' : Except ε β}
    (hthen : Related R x y) (helse : Related R x' y') :
    Related R (if c then x else x') (if c then y else y') := by
  split_ifs
  · exact hthen
  · exact helse

end Related

end Except
