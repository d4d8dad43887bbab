import Mathlib.Tactic.Common

/-!
# Machines

A machine has states and labels, and a step that is not enabled everywhere.
`Reach` is the set of states its runs reach when every label of the run meets a
condition, and `run` executes a given sequence of labels.  A condition that
depends on the state too is asked `along` the run.
-/

namespace Machine

variable {σ τ : Type} {step : σ → τ → Option σ} {P : τ → Prop} {start s s' : σ}

/-- The states reached from `start` by labels that meet `P`. -/
inductive Reach (step : σ → τ → Option σ) (P : τ → Prop) (start : σ) : σ → Prop where
  | start : Reach step P start start
  | step {s s' : σ} {l : τ} : Reach step P start s → P l → step s l = some s' →
      Reach step P start s'

/-- What holds at the start and is kept by every step holds in every state
reached. -/
theorem Reach.invariant {I : σ → Prop} (h : Reach step P start s) (hstart : I start)
    (hstep : ∀ s s' l, I s → P l → step s l = some s' → I s') : I s := by
  induction h with
  | start => exact hstart
  | step _ hl hs ih => exact hstep _ _ _ ih hl hs

/-- The state after a sequence of labels, if each is enabled in turn. -/
def run (step : σ → τ → Option σ) : σ → List τ → Option σ
  | s, [] => some s
  | s, l :: ls =>
      match step s l with
      | some s' => run step s' ls
      | none => none

theorem run_append (s : σ) (ls ls' : List τ) :
    run step s (ls ++ ls') = (run step s ls).bind fun s' => run step s' ls' := by
  induction ls generalizing s with
  | nil => rfl
  | cons l ls ih =>
      rw [List.cons_append, run, run]
      split
      next s₁ _ => exact ih s₁
      next => rfl

/-- One more label at the end of a run. -/
theorem run_concat {ls : List τ} {l : τ} (hrun : run step start ls = some s)
    (hs : step s l = some s') : run step start (ls ++ [l]) = some s' := by
  rw [run_append, hrun, Option.bind_some, run, hs]
  rfl

theorem Reach.of_run {ls : List τ} (h : Reach step P start s) (hP : ∀ l ∈ ls, P l)
    (hrun : run step s ls = some s') : Reach step P start s' := by
  induction ls generalizing s with
  | nil =>
      cases hrun
      exact h
  | cons l ls ih =>
      rw [List.forall_mem_cons] at hP
      rw [run] at hrun
      split at hrun
      next s₁ hs => exact ih (.step h hP.1 hs) hP.2 hrun
      next => cases hrun

/-- Every label of the run meets the condition in the state that takes it. -/
def along (step : σ → τ → Option σ) (C : σ → τ → Bool) : σ → List τ → Bool
  | _, [] => true
  | s, l :: ls =>
      C s l &&
        match step s l with
        | some s' => along step C s' ls
        | none => true

/-- The invariant rule for a run, where a step may use the condition. -/
theorem invariant_of_along {I : σ → Prop} {C : σ → τ → Bool} {ls : List τ}
    (hrun : run step s ls = some s') (hP : ∀ l ∈ ls, P l) (hC : along step C s ls = true)
    (hstart : I s)
    (hstep : ∀ s s' l, I s → P l → C s l = true → step s l = some s' → I s') : I s' := by
  induction ls generalizing s with
  | nil =>
      cases hrun
      exact hstart
  | cons l ls ih =>
      rw [List.forall_mem_cons] at hP
      rw [along, Bool.and_eq_true] at hC
      rw [run] at hrun
      split at hrun
      next s₁ hs =>
        rw [hs] at hC
        exact ih hrun hP.2 hC.2 (hstep s s₁ l hstart hP.1 hC.1 hs)
      next => cases hrun

end Machine
