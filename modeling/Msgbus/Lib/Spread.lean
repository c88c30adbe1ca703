import Mathlib.Data.Fintype.Card
import Mathlib.Data.Set.Card
import Mathlib.Logic.Relation

/-!
# Spreading along a relation

What one party knows, and every party hands on in each round along a relation,
has reached after so many rounds those that are so many steps away at most.  Over
finitely many parties one round less than there are parties is enough.
-/

namespace Spread

variable {ι : Type} {R : ι → ι → Prop} {i j : ι}

/-- After so many rounds, `j` knows what `i` knew. -/
def Within (R : ι → ι → Prop) (i : ι) : Nat → ι → Prop
  | 0, j => j = i
  | n + 1, j => Within R i n j ∨ ∃ x, Within R i n x ∧ R x j

theorem within_mono {n m : Nat} (hle : n ≤ m) (h : Within R i n j) : Within R i m j := by
  induction hle with
  | refl => exact h
  | step _ ih => exact Or.inl ih

theorem within_of_closed {n : Nat} (hclosed : ∀ j, Within R i (n + 1) j → Within R i n j)
    (h : Relation.ReflTransGen R i j) : Within R i n j := by
  induction h with
  | refl => exact within_mono (Nat.zero_le n) rfl
  | tail _ hedge ih => exact hclosed _ (Or.inr ⟨_, ih, hedge⟩)

/-- Until everybody has been reached, each round reaches somebody new. -/
theorem within_or_lt_ncard [Finite ι] (R : ι → ι → Prop) (i : ι) (n : Nat) :
    (∀ j, Relation.ReflTransGen R i j → Within R i n j) ∨ n < {j | Within R i n j}.ncard := by
  induction n with
  | zero =>
      right
      change 0 < ({i} : Set ι).ncard
      rw [Set.ncard_singleton]
      exact Nat.zero_lt_one
  | succ n ih =>
      by_cases hclosed : ∀ j, Within R i (n + 1) j → Within R i n j
      · exact Or.inl fun j h => Or.inl (within_of_closed hclosed h)
      · rcases ih with hall | hlt
        · exact Or.inl fun j h => Or.inl (hall j h)
        · right
          obtain ⟨j, hnew, hold⟩ := not_forall₂.mp hclosed
          have hgrown : {j | Within R i n j} ⊂ {j | Within R i (n + 1) j} :=
            ⟨fun _ h => Or.inl h, fun hback => hold (hback hnew)⟩
          have hmore := Set.ncard_lt_ncard hgrown
          omega

/-- Over finitely many parties one round less than there are parties is enough. -/
theorem within_of_reflTransGen [Fintype ι] (h : Relation.ReflTransGen R i j) {n : Nat}
    (hn : Fintype.card ι ≤ n + 1) : Within R i n j := by
  rcases within_or_lt_ncard R i n with hall | hlt
  · exact hall j h
  · have hle : {j | Within R i n j}.ncard ≤ Nat.card ι := Set.ncard_le_card _
    rw [Nat.card_eq_fintype_card] at hle
    have hcard : {j | Within R i n j}.ncard = Nat.card ι := by
      rw [Nat.card_eq_fintype_card]
      omega
    have huniv := (Set.eq_univ_iff_ncard _).mpr hcard
    exact (Set.ext_iff.mp huniv j).mpr trivial

end Spread
