import Mathlib.Data.List.Nodup
import Mathlib.Tactic.Common

/-!
# Lists with numbered elements

The elements of a list carry a number.  `sort` puts them in the order of their
numbers.  A part of the list that is in that order already is not rearranged by
it, wherever the other elements go.
-/

namespace Keyed

variable {α : Type} (key : α → Nat)

/-- The elements in the order of their numbers. -/
def sort (l : List α) : List α := l.mergeSort fun a b => decide (key a ≤ key b)

/-- The numbers of the elements increase along the list. -/
def Ascending (l : List α) : Prop := l.Pairwise fun a b => key a < key b

theorem sort_perm (l : List α) : (sort key l).Perm l := List.mergeSort_perm ..

theorem sort_pairwise (l : List α) : (sort key l).Pairwise fun a b => key a ≤ key b := by
  have h : (sort key l).Pairwise fun a b => decide (key a ≤ key b) = true := by
    refine List.pairwise_mergeSort (fun a b c hab hbc => ?_) (fun a b => ?_) l
    · rw [decide_eq_true_eq] at hab hbc ⊢
      exact Nat.le_trans hab hbc
    · rw [Bool.or_eq_true, decide_eq_true_eq, decide_eq_true_eq]
      exact Nat.le_total ..
  exact h.imp fun hab => of_decide_eq_true hab

variable {key} {l : List α}

theorem Ascending.nodup (h : Ascending key l) : (l.map key).Nodup := by
  rw [List.Nodup, List.pairwise_map]
  exact h.imp Nat.ne_of_lt

theorem Ascending.eq_of_key (h : Ascending key l) {a b : α} (ha : a ∈ l) (hb : b ∈ l)
    (hab : key a = key b) : a = b :=
  List.inj_on_of_nodup_map h.nodup ha hb hab

theorem Ascending.filter (h : Ascending key l) (p : α → Bool) : Ascending key (l.filter p) :=
  List.Pairwise.filter p h

/-- An element with a number above all others may be added at the end. -/
theorem Ascending.concat (h : Ascending key l) {a : α} (ha : ∀ b ∈ l, key b < key a) :
    Ascending key (l ++ [a]) := by
  refine List.pairwise_append.mpr ⟨h, List.pairwise_singleton .., fun b hb c hc => ?_⟩
  rw [List.mem_singleton] at hc
  exact hc ▸ ha b hb

theorem ascending_iff : Ascending key l ↔ (l.map key).Pairwise (· < ·) := List.pairwise_map.symm

/-! ## Parts of a list that grows -/

theorem filter_append_of {p : α → Bool} (l : List α) {es : List α} (h : ∀ a ∈ es, p a = true) :
    (l ++ es).filter p = l.filter p ++ es := by
  rw [List.filter_append, List.filter_eq_self.mpr h]

theorem filter_append_of_not {p : α → Bool} (l : List α) {es : List α}
    (h : ∀ a ∈ es, p a = false) : (l ++ es).filter p = l.filter p := by
  have hnil : es.filter p = [] := List.filter_eq_nil_iff.mpr fun a ha => by simp [h a ha]
  rw [List.filter_append, hnil, List.append_nil]

/-- Sorting keeps a part that is sorted already. -/
theorem filter_sort {p : α → Bool} (h : Ascending key (l.filter p)) :
    (sort key l).filter p = l.filter p := by
  have hperm := (sort_perm key l).filter p
  refine hperm.eq_of_pairwise (fun a b ha hb hab hba => ?_) ((sort_pairwise key l).filter p)
    (h.imp Nat.le_of_lt)
  exact h.eq_of_key (hperm.subset ha) hb (Nat.le_antisymm hab hba)

end Keyed
