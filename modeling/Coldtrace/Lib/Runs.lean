import Mathlib.Data.List.Infix
import Mathlib.Tactic.Common

/-!
# Conditions along a run

A run goes through a list of calls with `List.foldl`.  A condition `Along` the run
is asked of every call, in the state before it.  A condition `Throughout` the run is
asked of every state, the first and the last one too.  Both come apart where the
list does.
-/

namespace Runs

/-- Where an element of two lists in a row is. -/
theorem append_eq_append_cons {α : Type} {l l' pre post : List α} {x : α}
    (h : l ++ l' = pre ++ x :: post) :
    (∃ rest, l = pre ++ x :: rest ∧ post = rest ++ l') ∨
      ∃ mid, pre = l ++ mid ∧ l' = mid ++ x :: post := by
  rcases List.append_eq_append_iff.mp h with ⟨mid, hpre, hl'⟩ | ⟨mid, hl, hmid⟩
  · exact .inr ⟨mid, hpre, hl'⟩
  · cases mid with
    | nil => exact .inr ⟨[], by simpa using hl.symm, hmid.symm⟩
    | cons y mid =>
        obtain ⟨rfl, rfl⟩ := List.cons.inj hmid
        exact .inl ⟨mid, hl, rfl⟩

variable {σ τ : Type} {step : σ → τ → σ} {P Q : σ → τ → Prop} {I : σ → Prop} {s : σ} {l : τ}
  {ls ls' : List τ}

/-- Each call of a run is asked for, in the state before it. -/
def Along (step : σ → τ → σ) (P : σ → τ → Prop) (s : σ) (ls : List τ) : Prop :=
  ∀ pre l post, ls = pre ++ l :: post → P (pre.foldl step s) l

theorem along_nil : Along step P s [] := by
  intro pre l post heq
  simp at heq

theorem along_append :
    Along step P s (ls ++ ls') ↔ Along step P s ls ∧ Along step P (ls.foldl step s) ls' := by
  constructor
  · refine fun h => ⟨fun pre l post heq => h pre l (post ++ ls') ?_, fun pre l post heq => ?_⟩
    · rw [heq, List.append_assoc, List.cons_append]
    · rw [← List.foldl_append]
      exact h (ls ++ pre) l post (by rw [heq, List.append_assoc])
  · rintro ⟨h, h'⟩ pre l post heq
    rcases append_eq_append_cons heq with ⟨rest, hls, -⟩ | ⟨mid, rfl, hls'⟩
    · exact h pre l rest hls
    · rw [List.foldl_append]
      exact h' mid l post hls'

theorem along_singleton : Along step P s [l] ↔ P s l := by
  refine ⟨fun h => h [] l [] rfl, fun h pre l' post heq => ?_⟩
  obtain ⟨rfl, hl, -⟩ : pre = [] ∧ l' = l ∧ post = [] := by
    cases pre <;> simp_all
  exact hl ▸ h

theorem along_cons : Along step P s (l :: ls) ↔ P s l ∧ Along step P (step s l) ls := by
  rw [← List.singleton_append, along_append, along_singleton]
  rfl

theorem along_concat :
    Along step P s (ls ++ [l]) ↔ Along step P s ls ∧ P (ls.foldl step s) l := by
  rw [along_append, along_singleton]

theorem Along.imp (h : Along step P s ls) (hPQ : ∀ s l, P s l → Q s l) : Along step Q s ls :=
  fun pre l post heq => hPQ _ _ (h pre l post heq)

/-- Each state of a run is asked for. -/
def Throughout (step : σ → τ → σ) (I : σ → Prop) (s : σ) (ls : List τ) : Prop :=
  ∀ pre, pre <+: ls → I (pre.foldl step s)

theorem throughout_nil : Throughout step I s [] ↔ I s := by
  refine ⟨fun h => h [] (List.prefix_refl _), fun h pre hpre => ?_⟩
  rw [List.prefix_nil.mp hpre]
  exact h

theorem throughout_cons :
    Throughout step I s (l :: ls) ↔ I s ∧ Throughout step I (step s l) ls := by
  constructor
  · exact fun h => ⟨h [] List.nil_prefix,
      fun pre hpre => h (l :: pre) (List.cons_prefix_cons.mpr ⟨rfl, hpre⟩)⟩
  · rintro ⟨hs, h⟩ (_ | ⟨l', pre⟩) hpre
    · exact hs
    · obtain ⟨rfl, htail⟩ := List.cons_prefix_cons.mp hpre
      exact h pre htail

theorem Throughout.start (h : Throughout step I s ls) : I s := h [] List.nil_prefix

end Runs
