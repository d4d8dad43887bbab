import Mathlib.Data.Nat.ModEq
import Mathlib.Tactic.Common

/-!
# Rings

Items numbered from 0 on are written to `N` slots one after the other, item `j`
to slot `j % N`.  `latest N i k` is the item in slot `i` after `k` items, and
`none` when nothing was written there yet.
-/

namespace Ring

variable {N i j k : Nat}

/-- The item in slot `i` after `k` items. -/
def latest (N i : Nat) : Nat → Option Nat
  | 0 => none
  | k + 1 => if k % N = i then some k else latest N i k

theorem latest_succ (N i k : Nat) :
    latest N i (k + 1) = if k % N = i then some k else latest N i k := rfl

/-- The item in a slot is the last one written there. -/
theorem latest_eq_some (h : latest N i k = some j) :
    j < k ∧ j % N = i ∧ ∀ j', j' < k → j' % N = i → j' ≤ j := by
  induction k with
  | zero => cases h
  | succ k ih =>
      rw [latest_succ] at h
      split at h
      next hk =>
        cases h
        exact ⟨Nat.lt_succ_self _, hk, fun j' hj' _ => Nat.le_of_lt_succ hj'⟩
      next hk =>
        obtain ⟨hlt, hmod, hlast⟩ := ih h
        refine ⟨Nat.lt_succ_of_lt hlt, hmod, fun j' hj' hmod' => hlast j' ?_ hmod'⟩
        rcases Nat.lt_succ_iff_lt_or_eq.mp hj' with hlt' | rfl
        · exact hlt'
        · exact absurd hmod' hk

/-- One of the last `N` items is in its slot. -/
theorem latest_recent (hlt : j < k) (hk : k ≤ j + N) : latest N (j % N) k = some j := by
  induction k with
  | zero => exact absurd hlt (Nat.not_lt_zero j)
  | succ k ih =>
      rw [latest_succ]
      rcases Nat.lt_succ_iff_lt_or_eq.mp hlt with hlt' | rfl
      · -- fewer than `N` items after `j`, none of them is for its slot
        have hne : ¬ k % N = j % N := by
          intro heq
          have hdvd : N ∣ k - j := (Nat.modEq_iff_dvd' (Nat.le_of_lt hlt')).mp heq.symm
          have := Nat.le_of_dvd (by omega) hdvd
          omega
        rw [if_neg hne]
        exact ih hlt' (by omega)
      · rw [if_pos rfl]

/-- The slots in use are the first ones. -/
theorem latest_isSome (hN : 0 < N) : (latest N i k).isSome = true ↔ i < min k N := by
  constructor
  · intro h
    obtain ⟨j, hj⟩ := Option.isSome_iff_exists.mp h
    obtain ⟨hlt, hmod, -⟩ := latest_eq_some hj
    have := Nat.mod_lt j hN
    have := Nat.mod_le j N
    omega
  · intro h
    induction k with
    | zero => omega
    | succ k ih =>
        rw [latest_succ]
        split
        next => rfl
        next hk =>
          refine ih ?_
          have hne : i ≠ k := by
            rintro rfl
            exact hk (Nat.mod_eq_of_lt (by omega))
          omega

end Ring
