import Mathlib.Order.Basic

/-! Comparators that compare one number after another, and what they sort. -/
namespace Sorting

structure Sorts {α : Type} (cmp : α → α → Ordering) : Prop where
  trans : ∀ a b c, (cmp a b).isLE → (cmp b c).isLE → (cmp a c).isLE
  total : ∀ a b, (cmp a b).isLE || (cmp b a).isLE

variable {α : Type} {cmp : α → α → Ordering}

theorem then_isLE {x y : Nat} {o : Ordering} : ((compare x y).then o).isLE ↔ x < y ∨ (x = y ∧ o.isLE) := by
  rw [Ordering.isLE_then_iff_or,Nat.compare_eq_lt,Nat.compare_eq_eq]

theorem compare_isLE {f : α → Nat} {a b : α} : (compare (f a) (f b)).isLE ↔ f a ≤ f b := Nat.isLE_compare

theorem sorts_compare (f : α → Nat) : Sorts fun a b => compare (f a) (f b) where
  trans a b c first second := by
    rw [compare_isLE] at first second ⊢
    exact Nat.le_trans first second
  total a b := by
    rw [Bool.or_eq_true,compare_isLE,compare_isLE]
    exact Nat.le_total ..

theorem Sorts.after (sorts : Sorts cmp) (f : α → Nat) : Sorts fun a b => (compare (f a) (f b)).then (cmp a b) where
  trans a b c first second := by
    rw [then_isLE] at first second ⊢
    rcases first with first | ⟨same,first⟩
    · left
      omega
    rcases second with second | ⟨same',second⟩
    · left
      omega
    · exact .inr ⟨same.trans same',sorts.trans a b c first second⟩
  total a b := by
    rw [Bool.or_eq_true,then_isLE,then_isLE]
    rcases Nat.lt_trichotomy (f a) (f b) with less | same | more
    · exact .inl (.inl less)
    · rcases Bool.or_eq_true_iff.mp (sorts.total a b) with first | second
      · exact .inl (.inr ⟨same,first⟩)
      · exact .inr (.inr ⟨same.symm,second⟩)
    · exact .inr (.inl more)

theorem Sorts.sorted (sorts : Sorts cmp) (xs : List α) :
    (xs.mergeSort fun a b => (cmp a b).isLE).Pairwise fun a b => (cmp a b).isLE := List.pairwise_mergeSort sorts.trans sorts.total xs

end Sorting
