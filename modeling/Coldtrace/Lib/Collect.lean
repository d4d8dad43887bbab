import Mathlib.Data.List.Basic
import Mathlib.Data.List.Induction
import Mathlib.Tactic.Common

/-!
# Collecting the elements of a list once

A loop collects the elements of a list and leaves out the ones it knows.  What
it knows is decided by a search in what it has collected.  The search finds
every collected element, and may find others.

`collect_eq_iff` says when the loop collects a given list: the elements of the
list come first in its order, and the search finds an element exactly when it
is to be left out.
-/

namespace Collect

variable {α : Type} (known : List α → α → Bool)

/-- What the loop has collected after one more element. -/
def add (acc : List α) (a : α) : List α := if known acc a then acc else acc ++ [a]

/-- What the loop collects. -/
def collect (l : List α) : List α := l.foldl (add known) []

/-- A search finds what was collected, and still finds it when there is more. -/
structure Search : Prop where
  mem : ∀ acc a, a ∈ acc → known acc a = true
  mono : ∀ acc acc' a, known acc a = true → known (acc ++ acc') a = true

variable {known}

theorem add_of_known {acc : List α} {a : α} (h : known acc a = true) : add known acc a = acc :=
  if_pos h

theorem add_of_new {acc : List α} {a : α} (h : ¬ known acc a = true) :
    add known acc a = acc ++ [a] :=
  if_neg h

theorem collect_concat (l : List α) (a : α) :
    collect known (l ++ [a]) = add known (collect known l) a :=
  List.foldl_concat ..

theorem foldl_add_extends (acc l : List α) : acc <+: l.foldl (add known) acc := by
  induction l generalizing acc with
  | nil => exact List.prefix_refl acc
  | cons a l ih =>
      refine List.IsPrefix.trans ?_ (ih (add known acc a))
      rw [add]
      split
      next => exact List.prefix_refl acc
      next => exact List.prefix_append ..

theorem collect_extends (pre suf : List α) : collect known pre <+: collect known (pre ++ suf) := by
  rw [collect, collect, List.foldl_append]
  exact foldl_add_extends ..

/-- Only elements of the list are collected. -/
theorem mem_of_mem_collect {l : List α} {a : α} (h : a ∈ collect known l) : a ∈ l := by
  induction l using List.reverseRecOn with
  | nil => cases h
  | append_singleton l b ih =>
      rw [collect_concat, add] at h
      split at h
      next => exact List.mem_append_left _ (ih h)
      next =>
        rcases List.mem_append.mp h with hl | hb
        · exact List.mem_append_left _ (ih hl)
        · exact List.mem_append_right _ hb

section

variable (hs : Search known)

include hs

/-- Every element of the list is known in the end. -/
theorem Search.known_of_mem {l : List α} {a : α} (h : a ∈ l) :
    known (collect known l) a = true := by
  induction l using List.reverseRecOn with
  | nil => cases h
  | append_singleton l b ih =>
      rw [collect_concat]
      rcases List.mem_append.mp h with hl | hb
      · rw [add]
        split
        next => exact ih hl
        next => exact hs.mono _ _ _ (ih hl)
      · cases List.mem_singleton.mp hb
        by_cases hk : known (collect known l) a = true
        · rw [add_of_known hk]
          exact hk
        · rw [add_of_new hk]
          exact hs.mem _ _ (List.mem_append_right _ (List.mem_singleton_self a))

/-- What is known before it was collected is never collected. -/
theorem Search.not_mem_of_known {acc : List α} {a : α} (l : List α) (hk : known acc a = true)
    (ha : a ∉ acc) : a ∉ l.foldl (add known) acc := by
  induction l generalizing acc with
  | nil => exact ha
  | cons b l ih =>
      by_cases hb : known acc b = true
      · rw [List.foldl_cons, add_of_known hb]
        exact ih hk ha
      · rw [List.foldl_cons, add_of_new hb]
        refine ih (hs.mono _ _ _ hk) fun hmem => ?_
        rcases List.mem_append.mp hmem with hacc | hnew
        · exact ha hacc
        · cases List.mem_singleton.mp hnew
          exact hb hk

end

/-! ## The list to collect -/

variable [BEq α] [LawfulBEq α]

/-- The elements of a list that are wanted, in the order they first come. -/
def firsts (wanted l : List α) : List α := (l.filter (· ∈ wanted)).eraseDups

theorem mem_firsts {wanted l : List α} {a : α} : a ∈ firsts wanted l ↔ a ∈ l ∧ a ∈ wanted := by
  rw [firsts, List.mem_eraseDups, List.mem_filter, decide_eq_true_eq]

theorem eraseDups_concat (l : List α) (a : α) :
    (l ++ [a]).eraseDups = if a ∈ l then l.eraseDups else l.eraseDups ++ [a] := by
  rw [List.eraseDups_append, List.removeAll]
  split
  next h => simp [h]
  next h => simp [h, List.eraseDups_cons]

theorem firsts_concat (wanted l : List α) (a : α) :
    firsts wanted (l ++ [a]) =
      if a ∉ wanted ∨ a ∈ l then firsts wanted l else firsts wanted l ++ [a] := by
  rw [firsts, List.filter_append]
  by_cases hw : a ∈ wanted
  · have hself : [a].filter (· ∈ wanted) = [a] := by simp [hw]
    rw [hself, eraseDups_concat]
    simp [firsts, hw]
  · simp [firsts, hw]

/-- The loop follows the wanted elements as long as the search finds exactly
what is to be left out. -/
theorem collect_eq_firsts {wanted l : List α}
    (h : ∀ pre a, pre ++ [a] <+: l → collect known pre = firsts wanted pre →
      (known (collect known pre) a = true ↔ a ∉ wanted ∨ a ∈ pre)) :
    collect known l = firsts wanted l := by
  induction l using List.reverseRecOn with
  | nil => rfl
  | append_singleton l a ih =>
      have hl := ih fun pre b hpre => h pre b (hpre.trans (List.prefix_append ..))
      have ha := h l a (List.prefix_refl _) hl
      rw [collect_concat, firsts_concat, add, ← hl]
      by_cases hk : known (collect known l) a = true
      · rw [if_pos hk, if_pos (ha.mp hk)]
      · rw [if_neg hk, if_neg (fun hout => hk (ha.mpr hout))]

/-- In a run that collects the wanted elements, the search finds exactly what is
to be left out. -/
theorem Search.known_iff (hs : Search known) {wanted l pre : List α} {a : α}
    (h : collect known l = wanted) (hpre : pre ++ [a] <+: l) :
    known (collect known pre) a = true ↔ a ∉ wanted ∨ a ∈ pre := by
  obtain ⟨suf, rfl⟩ := hpre
  constructor
  · intro hk
    by_cases ha : a ∈ pre
    · exact .inr ha
    · refine .inl fun hw => ?_
      have hnew : a ∉ collect known pre := fun hmem => ha (mem_of_mem_collect hmem)
      rw [← h, List.append_assoc, collect, List.foldl_append] at hw
      exact hs.not_mem_of_known _ hk hnew hw
  · rintro (hw | ha)
    · by_contra hk
      have hmem : a ∈ collect known (pre ++ [a]) := by
        rw [collect_concat, add_of_new hk]
        exact List.mem_append_right _ (List.mem_singleton_self a)
      rw [← h] at hw
      exact hw ((collect_extends (pre ++ [a]) suf).subset hmem)
    · exact hs.known_of_mem ha

/-- The loop collects the wanted list exactly when its elements come first in its
order, and the search finds exactly what is to be left out. -/
theorem Search.collect_eq_iff (hs : Search known) {wanted l : List α} :
    collect known l = wanted ↔
      firsts wanted l = wanted ∧ ∀ i (h : i < l.length),
        (known (firsts wanted (l.take i)) l[i] = true ↔ l[i] ∉ wanted ∨ l[i] ∈ l.take i) := by
  constructor
  · intro h
    have hfirsts : ∀ pre, pre <+: l → collect known pre = firsts wanted pre := fun pre hpre =>
      collect_eq_firsts fun pre' a hpre' _ => hs.known_iff h (hpre'.trans hpre)
    refine ⟨(hfirsts l (List.prefix_refl l)).symm.trans h, fun i hi => ?_⟩
    have hnext : l.take i ++ [l[i]] <+: l := by
      rw [List.take_append_getElem]
      exact List.take_prefix ..
    rw [← hfirsts _ (List.take_prefix ..)]
    exact hs.known_iff h hnext
  · rintro ⟨hwanted, hk⟩
    have hl : collect known l = firsts wanted l := by
      refine collect_eq_firsts fun pre a hpre heq => ?_
      obtain ⟨suf, rfl⟩ := hpre
      have ha := hk pre.length (by simp)
      rw [heq]
      simpa using ha
    exact hl.trans hwanted

end Collect
